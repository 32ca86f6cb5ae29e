/-
  App/Program/Launch.lean --- what the program starts its sessions with.

  Between the torrent file and the first byte to a peer stand the parser, the loader, the
  tracker and the random identifier.  Everything that a session is given is traced back to
  what was read, and what it writes first is the handshake made of it.
-/
import BitTorrentClient.App.Program.Ending
import BitTorrentClient.App.Swarm.Wire

set_option autoImplicit false

namespace BitTorrentClient

open Library Bencode

namespace Loader

end Loader

namespace Surroundings

variable {Url : Type} {env : Surroundings Url} {sha1 : Bytes → Sha1Hash} {fuel : Nat}
  {launch : Launch}

end Surroundings

namespace Program

variable {sha1 : Bytes → Sha1Hash} {launch : Launch} {disk : Disk} {tracked : Bool}
  {history : List (Transition (Program (Fin launch.peers.length))
    (Label (Fin launch.peers.length)))} {p : Program (Fin launch.peers.length)}

end Program

end BitTorrentClient
