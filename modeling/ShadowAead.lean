import ShadowAead.Basic
import ShadowAead.Catalog
import ShadowAead.Context
import ShadowAead.Udp
import ShadowAead.TcpEncrypt
import ShadowAead.TcpDecrypt
import ShadowAead.Reference
import ShadowAead.Refinement
import ShadowAead.RoundTrip
import ShadowAead.Replay
import ShadowAead.Integrity
import ShadowAead.Isolation
