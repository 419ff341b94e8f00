import Hyprwire.Client.CallOrder
import Hyprwire.Client.History
import Hyprwire.Client.Roundtrips
import Hyprwire.Client.Timeouts
import Hyprwire.Client.Waits
import Hyprwire.Link.AfterError
import Hyprwire.Link.Binds
import Hyprwire.Link.Calls
import Hyprwire.Link.Events
import Hyprwire.Link.Handles
import Hyprwire.Link.HangUp
import Hyprwire.Link.Owners
import Hyprwire.Link.Roundtrips
import Hyprwire.Link.Segments
import Hyprwire.Link.Settling
import Hyprwire.Link.Versions
import Hyprwire.Object.Agree
import Hyprwire.Object.Batch
import Hyprwire.Object.Lengths
import Hyprwire.Object.Reads
import Hyprwire.Scanner.RoundTrip
import Hyprwire.Server.Apart
import Hyprwire.Server.Endless
import Hyprwire.Server.Generics
import Hyprwire.Server.Handshake
import Hyprwire.Server.Paths
import Hyprwire.Server.PollThread
import Hyprwire.Server.Reports
import Hyprwire.Server.Shutdown
import Hyprwire.Server.Table
import Hyprwire.Tracing.Harmless
import Hyprwire.Wire.Canonical
import Hyprwire.Wire.ControlSafety
import Hyprwire.Wire.Drain
import Hyprwire.Wire.Sending
