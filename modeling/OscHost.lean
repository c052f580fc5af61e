import OscHost.Packet.Composer
import OscHost.Packet.Cursor
import OscHost.Packet.MethodTable
import OscHost.Recording.LogReader
import OscHost.Host.Sequencer
import OscHost.Host.Upkeep
import OscHost.Proofs.Iteration
import OscHost.Proofs.Schedule.Arena
import OscHost.Proofs.Schedule.Agenda
import OscHost.Proofs.Schedule.Handles
import OscHost.Proofs.Schedule.Walks
import OscHost.Proofs.Schedule.Periods
import OscHost.Proofs.Schedule.Reports
import OscHost.Proofs.Wire.Steps
import OscHost.Proofs.Wire.Utf8
import OscHost.Proofs.Wire.Field
import OscHost.Proofs.Wire.Appending
import OscHost.Proofs.Wire.Steadiness
import OscHost.Proofs.Wire.Locality
import OscHost.Proofs.Wire.Shortfall
import OscHost.Proofs.Wire.UnixTime
import OscHost.Proofs.Wire.Deposits
import OscHost.Proofs.Packet.MessageForm
import OscHost.Proofs.Packet.PacketTree
import OscHost.Proofs.Packet.Flattening
import OscHost.Proofs.Packet.Items
import OscHost.Proofs.Packet.Composition
import OscHost.Proofs.Packet.Refusal
import OscHost.Proofs.Packet.Canonical
import OscHost.Proofs.Packet.Rollback
import OscHost.Proofs.Packet.Views
import OscHost.Proofs.Packet.PrefixFree
import OscHost.Proofs.Packet.Formats
import OscHost.Proofs.Stream.Line
import OscHost.Proofs.Stream.Framing
import OscHost.Proofs.Recording.Transcript
import OscHost.Proofs.Recording.Playback
import OscHost.Proofs.Schedule.Storage
import OscHost.Proofs.Schedule.Replenishing
import OscHost.Proofs.Schedule.Sizes
import OscHost.Proofs.Host.Run
import OscHost.Proofs.Host.Stock
import OscHost.Proofs.Host.Conservation
import OscHost.Proofs.Host.Filing
import OscHost.Proofs.Host.Injection
import OscHost.Proofs.Host.Verdicts
import OscHost.Proofs.Host.Targets
import OscHost.Proofs.Host.Passage
import OscHost.Proofs.Host.Session
import OscHost.Proofs.Host.Replay
import OscHost.Proofs.Host.Serviceable
import OscHost.Proofs.Host.Wakeup
import OscHost.Proofs.Host.Interleaving
