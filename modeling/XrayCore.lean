import XrayCore.Buf.Conversion
import XrayCore.Kcp.Connection
import XrayCore.Kcp.System
import XrayCore.Kcp.Wraparound
import XrayCore.SplitHttp.Completeness
import XrayCore.SplitHttp.Sessions
import XrayCore.SplitHttp.Xmux
import XrayCore.Mux.Registry
import XrayCore.Mux.Demux
import XrayCore.Shadowsocks.SaltReplay
import XrayCore.Shadowsocks.UdpReplay
import XrayCore.Geodata.IpMatcher
import XrayCore.Geodata.IndexMatcher
import XrayCore.Vmess.AuthId
import XrayCore.Shadowsocks.StreamRoundTrip
import XrayCore.Shadowsocks.ResponseBinding
import XrayCore.Vmess.ChunkTamper
import XrayCore.Dns.CacheController
import XrayCore.Dns.FakeDns
import XrayCore.Dns.ParallelQuery
import XrayCore.Dns.SingleFlight
import XrayCore.Hysteria.Session
import XrayCore.Hysteria.TcpStream
import XrayCore.Xdns.Uplink
import XrayCore.Xdns.Downlink
import XrayCore.Sudoku.RoundTrip
import XrayCore.Xudp.Consumers
import XrayCore.Tuic.Association
import XrayCore.Vless.VisionReading
import XrayCore.Vless.VisionWriting
import XrayCore.Vless.VisionChannels
import XrayCore.Vless.CommonBuffers
import XrayCore.Xmc.EncryptSink
import XrayCore.Xmc.Packets
import XrayCore.Netstack.Relays
import XrayCore.Dispatcher.Sniffer
import XrayCore.Streams.EarlyData
import XrayCore.Streams.LinkReaders
import XrayCore.Reality.Fallback
import XrayCore.Streams.FramedWriters
import XrayCore.Streams.HeaderConn
import XrayCore.Streams.RecordFramer
import XrayCore.Streams.Bridge
