import BitTorrentClient.Library.Machine
import BitTorrentClient.Library.KeyedList
import BitTorrentClient.Library.ByteRange
import BitTorrentClient.Library.Search
import BitTorrentClient.Library.Assembly
import BitTorrentClient.Library.CondVar
import BitTorrentClient.Library.Decimal
import BitTorrentClient.Library.Loop
import BitTorrentClient.Library.Ledger
import BitTorrentClient.Library.Chunks
import BitTorrentClient.Library.Frames
import BitTorrentClient.Library.Outcome
import BitTorrentClient.Library.Layout
import BitTorrentClient.Library.Interleaving
import BitTorrentClient.Core.Failure
import BitTorrentClient.Core.Utils
import BitTorrentClient.Core.ByteCodec
import BitTorrentClient.Core.TorrentMetadata
import BitTorrentClient.Core.Bencode.Value
import BitTorrentClient.Core.Bencode.Parser
import BitTorrentClient.Core.Bencode.Outcome
import BitTorrentClient.Core.Bencode.Reads
import BitTorrentClient.Core.Bencode.Calls
import BitTorrentClient.Core.Bencode.Numerals
import BitTorrentClient.Core.Bencode.Integers
import BitTorrentClient.Core.Bencode.Progress
import BitTorrentClient.Core.Bencode.Grammar
import BitTorrentClient.Core.Bencode.RoundTrip
import BitTorrentClient.Core.Bencode.Soundness
import BitTorrentClient.Core.Bencode.Accesses
import BitTorrentClient.Core.TorrentMetadataLoader
import BitTorrentClient.Core.InfoHash
import BitTorrentClient.Core.Bencode.Unambiguous
import BitTorrentClient.Core.TorrentFile
import BitTorrentClient.Core.PieceCount
import BitTorrentClient.Core.PeerCommunicator
import BitTorrentClient.Core.Handshake
import BitTorrentClient.Core.TrackerCommunicator
import BitTorrentClient.Core.Announce
import BitTorrentClient.App.PeerManager
import BitTorrentClient.App.FileHandler
import BitTorrentClient.App.PieceManager
import BitTorrentClient.App.PieceManager.Steps
import BitTorrentClient.App.PieceManager.Geometry
import BitTorrentClient.App.PieceManager.Completion
import BitTorrentClient.App.PieceManager.Scheduler
import BitTorrentClient.App.PieceManager.OnDisk
import BitTorrentClient.App.PieceManager.Received
import BitTorrentClient.App.PieceManager.Judging
import BitTorrentClient.App.PieceManager.Totality
import BitTorrentClient.App.PieceManager.Selection
import BitTorrentClient.App.PieceManager.SpareBits
import BitTorrentClient.App.PieceManager.PieceLength
import BitTorrentClient.App.PieceManager.Consistency
import BitTorrentClient.App.PieceManager.Offers
import BitTorrentClient.App.PieceManager.Returns
import BitTorrentClient.App.PieceManager.Commute
import BitTorrentClient.App.PieceManager.Refetch
import BitTorrentClient.App.PieceManager.Reassembly
import BitTorrentClient.App.PieceManager.Service
import BitTorrentClient.App.PieceManager.FileBytes
import BitTorrentClient.App.PieceManager.OutOfRange
import BitTorrentClient.App.PieceManager.WriteFailure
import BitTorrentClient.App.PeerSession
import BitTorrentClient.App.PeerSession.Gating
import BitTorrentClient.App.PeerSession.Accounts
import BitTorrentClient.App.PeerSession.Messages
import BitTorrentClient.App.PeerSession.Conduct
import BitTorrentClient.App.PeerSession.Pipeline
import BitTorrentClient.App.PeerSession.Capacity
import BitTorrentClient.App.PeerSession.Framing
import BitTorrentClient.App.Swarm
import BitTorrentClient.App.Swarm.Books
import BitTorrentClient.App.Swarm.NoLeak
import BitTorrentClient.App.Swarm.Exclusive
import BitTorrentClient.App.Swarm.Views
import BitTorrentClient.App.Swarm.Protocol
import BitTorrentClient.App.Swarm.Unsolicited
import BitTorrentClient.App.Swarm.Refill
import BitTorrentClient.App.Swarm.Honest
import BitTorrentClient.App.Swarm.Download
import BitTorrentClient.App.Swarm.Liveness
import BitTorrentClient.App.Swarm.Once
import BitTorrentClient.App.Swarm.Effort
import BitTorrentClient.App.Swarm.Schedule
import BitTorrentClient.App.Swarm.Wire
import BitTorrentClient.App.Swarm.Disk
import BitTorrentClient.App.TorrentOrchestrator
import BitTorrentClient.App.TorrentOrchestrator.Wakeup
import BitTorrentClient.App.Program
import BitTorrentClient.App.Program.Ending
import BitTorrentClient.App.Program.Finishing
import BitTorrentClient.App.Program.Launch
import BitTorrentClient.App.Program.Output
