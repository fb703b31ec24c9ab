import ToneWatch.Morse.Tone
import ToneWatch.Numeric.Shortest
import ToneWatch.Numeric.Reading
import ToneWatch.Json.Quoted
import ToneWatch.Json.Printer
import ToneWatch.Json.Reader
import ToneWatch.Frame
import ToneWatch.History
import ToneWatch.Packet
import ToneWatch.Settings.Analysis
import ToneWatch.Settings.Morse
import ToneWatch.Settings.Store
import ToneWatch.Consumer
import ToneWatch.Morse.Outbox
import ToneWatch.Morse.Receiver
import ToneWatch.Morse.Transcriber
import ToneWatch.Sound.Library
import ToneWatch.Framer
import ToneWatch.Mailbox
import ToneWatch.Recording
import ToneWatch.Session
import ToneWatch.CommandLine.Arguments
import ToneWatch.CommandLine.Command
import ToneWatch.CommandLine.Key
import ToneWatch.CommandLine.Listen
import ToneWatch.Main
import ToneWatch.Proofs.Morse.RoundTrip
import ToneWatch.Proofs.Morse.Release
import ToneWatch.Proofs.Sound.Watching
import ToneWatch.Proofs.Session.Delivery
import ToneWatch.Proofs.Morse.Rendering
import ToneWatch.Proofs.Bytes
import ToneWatch.Proofs.Queue
import ToneWatch.Proofs.Session.Streaming
import ToneWatch.Proofs.Session.Accounts
import ToneWatch.Proofs.Sound.Unbounded
import ToneWatch.Proofs.CommandLine.Report
import ToneWatch.Proofs.Packet
import ToneWatch.Proofs.Mailbox
import ToneWatch.Proofs.Morse.Overflow
import ToneWatch.Proofs.Morse.LetterLoss
import ToneWatch.Proofs.Morse.Messages
import ToneWatch.Proofs.Morse.Polling
import ToneWatch.Proofs.Sound.Tolerance
import ToneWatch.Proofs.Morse.Canonical
import ToneWatch.Proofs.Spectrum.Picking
import ToneWatch.Proofs.Spectrum.Reporting
import ToneWatch.Proofs.Sound.Saving
import ToneWatch.Proofs.Settings.Analysis
import ToneWatch.Proofs.Frame
import ToneWatch.Proofs.CommandLine.Rate
import ToneWatch.Proofs.Wav
import ToneWatch.Proofs.Morse.Registers
