import Phosphor.Log
import Phosphor.Main
import Phosphor.Desktop.FrameClock
import Phosphor.Strict.Console
import Phosphor.Proofs.Faults
import Phosphor.Proofs.KeyWait
import Phosphor.Proofs.Rendering
import Phosphor.Proofs.Footprint
import Phosphor.Proofs.ControlFlow
import Phosphor.Proofs.CallStack
import Phosphor.Proofs.Afterglow
import Phosphor.Proofs.Speaker
import Phosphor.Proofs.LiveCadence
import Phosphor.Proofs.Reload
import Phosphor.Proofs.Noninterference
import Phosphor.Proofs.Batching
import Phosphor.Proofs.Painting
import Phosphor.Proofs.Keyboard
import Phosphor.Proofs.Disassembly
import Phosphor.Proofs.MemoryListing
import Phosphor.Proofs.Runaway
import Phosphor.Proofs.RandomStream
import Phosphor.Proofs.Strictness
import Phosphor.Proofs.WindowEvents
import Phosphor.Proofs.DrawRoundTrip
import Phosphor.Proofs.Arithmetic
import Phosphor.Proofs.Decimal
import Phosphor.Proofs.Assembly
import Phosphor.Proofs.PowerOn
import Phosphor.Proofs.ToneLength
import Phosphor.Proofs.Settling
import Phosphor.Proofs.CatchUp
