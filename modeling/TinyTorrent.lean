import TinyTorrent.Primitives
import TinyTorrent.Torrent
import TinyTorrent.Download.Sizing
import TinyTorrent.Download.Piece
import TinyTorrent.Download.Engine
import TinyTorrent.Download.Slots
import TinyTorrent.Download.Flush
import TinyTorrent.Download.Progress
import TinyTorrent.Download.Honest
import TinyTorrent.Download.Safety
import TinyTorrent.Tracker.Query
import TinyTorrent.Tracker.Request
import TinyTorrent.Tracker.Response
import TinyTorrent.Tracker.Schema
import TinyTorrent.Tracker.Reuse
import TinyTorrent.Tracker.Url
import TinyTorrent.Client.Announce
import TinyTorrent.Client.Workers
import TinyTorrent.Client.Admission
import TinyTorrent.Client.TrackerId
import TinyTorrent.Client.Protocol
import TinyTorrent.Client.Shutdown
import TinyTorrent.Client.Seeders
