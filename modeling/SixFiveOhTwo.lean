import SixFiveOhTwo.Debug.Agreement
import SixFiveOhTwo.Debug.Prediction
import SixFiveOhTwo.Polling.Cancel
import SixFiveOhTwo.Snapshots.Complete
import SixFiveOhTwo.Arithmetic.Multibyte
import SixFiveOhTwo.Debug.Bounded
import SixFiveOhTwo.Debug.Console
import SixFiveOhTwo.Debug.Divergence
import SixFiveOhTwo.Frames.Brackets
import SixFiveOhTwo.Lines.Redundant
import SixFiveOhTwo.Lines.Masked
import SixFiveOhTwo.Parts.Refinement
import SixFiveOhTwo.Undocumented.Combined
import SixFiveOhTwo.Halting.Jam
import SixFiveOhTwo.Traces.RoundTrip
import SixFiveOhTwo.Aborts.Accounting
import SixFiveOhTwo.Effects.Frame
import SixFiveOhTwo.Commands.Atomic
import SixFiveOhTwo.Memories.Interrupted
import SixFiveOhTwo.Memories.Recorded
import SixFiveOhTwo.Commands.Main
import SixFiveOhTwo.Polling.Level
import SixFiveOhTwo.Debug.Spending
import SixFiveOhTwo.Listings.Printed
import SixFiveOhTwo.Listings.Range
import SixFiveOhTwo.Snapshots.Canonical
import SixFiveOhTwo.Traces.Cut
import SixFiveOhTwo.Traces.Replayed
import SixFiveOhTwo.Arithmetic.Shifted
import SixFiveOhTwo.Manual.Refinement
