import BananaOS.Lib.Buffers
import BananaOS.Lib.Bytes
import BananaOS.Lib.Checked
import BananaOS.Lib.Device
import BananaOS.Lib.Halves
import BananaOS.Lib.Limbs
import BananaOS.Lib.Lines
import BananaOS.Lib.Links
import BananaOS.Lib.Owners
import BananaOS.Lib.Ranges
import BananaOS.Lib.RingBuf
import BananaOS.Lib.Tiles
import BananaOS.Lib.Triples
import BananaOS.Lib.TwosComplement
import BananaOS.Uspace.Ranges
import BananaOS.Uspace.RangeMap
import BananaOS.Uspace.Paging
import BananaOS.Zswap.Codec
import BananaOS.Zswap.RoundTrip
import BananaOS.Zswap.Entries
import BananaOS.Zswap.Lists
import BananaOS.Zswap.Books
import BananaOS.Zswap.Tables
import BananaOS.Zswap.Bookkeeping
import BananaOS.Zswap.Content
import BananaOS.Uspace.Homes
import BananaOS.Uspace.Invisible
import BananaOS.Ext4.Blocks
import BananaOS.Ext4.Bitmaps
import BananaOS.Ext4.Extents
import BananaOS.Ext4.ExtentMap
import BananaOS.Ext4.Tree
import BananaOS.Ext4.Nodes
import BananaOS.Ext4.Stored
import BananaOS.Ext4.RoundTrip
import BananaOS.Ext4.Journal
import BananaOS.Ext4.Commit
import BananaOS.Ext4.Recovery
import BananaOS.Ext4.Atomic
import BananaOS.Fs.Paths
import BananaOS.Net.LetIn
import BananaOS.Sched.Cores
import BananaOS.Sched.Places
import BananaOS.Umem.Blocks
import BananaOS.Umem.Frames
import BananaOS.Umem.Shared
import BananaOS.Umem.Pool
import BananaOS.Umem.Live
import BananaOS.Umem.Tables
import BananaOS.Umem.Alloc
import BananaOS.Umem.Free
import BananaOS.Umem.Held
import BananaOS.Tlb.Fresh
import BananaOS.Bigint.Arith
import BananaOS.Bigint.Magnitude
import BananaOS.Bigint.Exact
import BananaOS.Pipes.Sections
import BananaOS.Pipes.Streams
import BananaOS.Pipes.Tasks
import BananaOS.Regex.Match
import BananaOS.Regex.Language
import BananaOS.Regex.Decides
import BananaOS.Terminal.Line
import BananaOS.Terminal.Tty
import BananaOS.Terminal.Discipline
import BananaOS.Textbuf.Utf8
import BananaOS.Textbuf.Edit
import BananaOS.Textbuf.Flat
import BananaOS.Textbuf.Edits
import BananaOS.Textbuf.Refine
import BananaOS.Textbuf.Chars
import BananaOS.Emulator.Widths
import BananaOS.Emulator.Screen
import BananaOS.Emulator.Output
import BananaOS.Emulator.Owned
import BananaOS.Emulator.Fits
import BananaOS.Emulator.Controls
import BananaOS.Emulator.Steps
import BananaOS.Emulator.Inside
import BananaOS.Emulator.Halves
import BananaOS.Ext4.Entries
import BananaOS.Ext4.Inodes
import BananaOS.Ext4.Maps
import BananaOS.Ext4.FileData
import BananaOS.Ext4.Folders
import BananaOS.Ext4.FolderChanges
import BananaOS.Ext4.FolderMap
import BananaOS.Ext4.MakeFolder
import BananaOS.Ext4.FolderRuns
import BananaOS.Umem.Owns
import BananaOS.Lib.Serial
import BananaOS.Tcp.Conn
import BananaOS.Tcp.Input
import BananaOS.Tcp.Frames
import BananaOS.Tcp.Probes
import BananaOS.Tcp.Answers
import BananaOS.Tcp.Edges
import BananaOS.Lib.Spread
import BananaOS.Tcp.Window
import BananaOS.Tcp.Board
import BananaOS.Tcp.Held
import BananaOS.Tcp.Reports
import BananaOS.Kheap.Runs
import BananaOS.Diskpart.Exfat
import BananaOS.Zip.Inside
import BananaOS.Terminal.Output
import BananaOS.Tcp.Send
import BananaOS.Tcp.Sockets
import BananaOS.Lib.Gaps
import BananaOS.Diskpart.Table
import BananaOS.Diskpart.Valid
import BananaOS.Diskpart.Create
import BananaOS.Diskpart.Fat32
import BananaOS.Bigint.Decimal
import BananaOS.Bigint.Power
import BananaOS.Hid.Parse
import BananaOS.Hid.Fields
import BananaOS.Regex.Compile
import BananaOS.Regex.Inside
import BananaOS.Regex.Undone
import BananaOS.Lib.Feed
import BananaOS.Lib.Sha2
import BananaOS.Crypto.Sha256
import BananaOS.Crypto.Sha512
import BananaOS.Crypto.Hmac
import BananaOS.Fsdisk.Patch
import BananaOS.Fsdisk.Stream
import BananaOS.Fsdisk.Delta
import BananaOS.Lib.Aes
import BananaOS.Crypto.Aes
import BananaOS.Lib.KeyWrap
import BananaOS.Crypto.WifiCrypto
import BananaOS.Lib.Little
import BananaOS.Lib.Poly1305
import BananaOS.Crypto.Poly1305
import BananaOS.Crypto.ChaChaPoly
import BananaOS.Lib.Gcm
import BananaOS.Crypto.Gcm
import BananaOS.Net.Replies
import BananaOS.Net.Ip6Format
import BananaOS.Net.DnsReplies
import BananaOS.Clock.Zones
import BananaOS.Net.Dns
import BananaOS.Clock.Civil
import BananaOS.Media.FlacSeek
import BananaOS.Net.DhcpLease
import BananaOS.Lib.TwoRuns
import BananaOS.Media.Flac
import BananaOS.Media.FlacSamples
import BananaOS.Lib.Bitmap
import BananaOS.Zswap.Slots
import BananaOS.Code.Json
import BananaOS.Deflate.Lengths
import BananaOS.Lib.Canonical
import BananaOS.Deflate.Codes
import BananaOS.Net.HttpChunked
import BananaOS.Net.HttpFetch
import BananaOS.Rdp.Rle
import BananaOS.Rdp.RleSpec
