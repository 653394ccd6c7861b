import UltraBalancer.Types
import UltraBalancer.Lifecycle
import UltraBalancer.Listen
import UltraBalancer.Registry
import UltraBalancer.LeastConn
import UltraBalancer.RoundRobin
import UltraBalancer.Resources
import UltraBalancer.Concurrent.System
import UltraBalancer.Concurrent.Serial
import UltraBalancer.Concurrent.Scan
import UltraBalancer.Concurrent.Lock
import UltraBalancer.Concurrent.Cursor
import UltraBalancer.Concurrent.Linearizable
import UltraBalancer.Concurrent.Fair
import UltraBalancer.Concurrent.Publish
import UltraBalancer.Main
