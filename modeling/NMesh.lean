import NMesh.Udp.Packets
import NMesh.Udp.Opening
import NMesh.Udp.Memory
import NMesh.Cert.Sound
import NMesh.Cert.Restart
import NMesh.Cert.Readmission
import NMesh.Cert.Compaction
import NMesh.Opinion.Hearsay
import NMesh.Opinion.Families
import NMesh.Relay.Hops
import NMesh.Relay.Cadence
import NMesh.Link.Members
import NMesh.Link.Quality
import NMesh.Link.Redundant
import NMesh.E2e.Whole
import NMesh.Auth.Sessions
import NMesh.Routing.Nearest
import NMesh.Routing.RoundTrip
import NMesh.Join.Reads
import NMesh.Directory.Renaming
import NMesh.CoreRelease.Canonical
import NMesh.CoreRelease.Crowding
import NMesh.CoreRelease.Unattended
import NMesh.Directory.Verdict
import NMesh.StopRelay.Accused
import NMesh.Forward.Carried
import NMesh.AppAuth.Completes
import NMesh.Boot.Retreat
import NMesh.Storage.Kept
import NMesh.Logs.Fleet
import NMesh.Console.Lasting
import NMesh.Store.Installed
import NMesh.Opinion.Believed
import NMesh.KeyShare.Offering
import NMesh.Directory.Recording
import NMesh.Directory.Accounts
import NMesh.Fleet.Standing
import NMesh.Fleet.Reload
import NMesh.Spool.Records
import NMesh.Control.Frame
import NMesh.CoreRelease.Journal
import NMesh.Fleet.Narrowing
import NMesh.Fleet.Places
import NMesh.Perms.TakenBack
import NMesh.AppAuth.Reuse
import NMesh.Boot.Resumed
import NMesh.Boot.Faults
import NMesh.Routed.Lead
import NMesh.Routed.Book
import NMesh.Contacts.Versions
import NMesh.Config.Edits
import NMesh.Spool.Bundle
import NMesh.Fleet.ShellOutput
import NMesh.Logs.Ring
