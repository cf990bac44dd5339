import Kubenyx.Common.OrdMap
import Kubenyx.Common.Replay
import Kubenyx.Common.Numbered
import Kubenyx.Common.Machine
import Kubenyx.Common.FileProg
import Kubenyx.Common.Encoding
import Kubenyx.Common.Base64
import Kubenyx.Common.Utf8
import Kubenyx.Common.IpAddr
import Kubenyx.Common.Decimal
import Kubenyx.Common.Cidr
import Kubenyx.Common.Rfc5952
import Kubenyx.Common.Shell
import Kubenyx.Common.RustStr
import Kubenyx.Common.Slice
import Kubenyx.Common.Rotation
import Kubenyx.Common.Wrapping
import Kubenyx.Common.Json
import Kubenyx.EtcdMem.Proto
import Kubenyx.EtcdMem.Store
import Kubenyx.EtcdMem.Svc
import Kubenyx.EtcdMem.Interval
import Kubenyx.EtcdMem.Plan
import Kubenyx.EtcdMem.Journal
import Kubenyx.EtcdMem.History
import Kubenyx.EtcdMem.Metadata
import Kubenyx.EtcdMem.LeaseIndex
import Kubenyx.EtcdMem.Revision
import Kubenyx.EtcdMem.OptimisticLock
import Kubenyx.EtcdMem.Expiry
import Kubenyx.EtcdMem.Watch
import Kubenyx.EtcdMem.KeySelection
import Kubenyx.EtcdMem.Paging
import Kubenyx.EtcdMem.Compaction
import Kubenyx.EtcdMem.WatchDelivery
import Kubenyx.EtcdMem.WatchClient
import Kubenyx.EtcdMem.Mirror
import Kubenyx.Pki.Shared
import Kubenyx.Pki.Mint
import Kubenyx.Pki.Issue
import Kubenyx.Pki.Kubeconfig
import Kubenyx.Pki.Agent
import Kubenyx.Pki.Reship
import Kubenyx.Pki.Server
import Kubenyx.Pki.Custody
import Kubenyx.Pki.Reissue
import Kubenyx.Pki.Serve
import Kubenyx.Pki.Tar
import Kubenyx.Pki.Trust
import Kubenyx.Net.Cidr
import Kubenyx.Net.Hextets
import Kubenyx.Net.Literal
import Kubenyx.Net.Carve
import Kubenyx.Net.PodSubnet
import Kubenyx.Net.Routes
import Kubenyx.Microvm.Subnet
import Kubenyx.Microvm.Members
import Kubenyx.Microvm.Nodes
import Kubenyx.Quorum.MemberGuard
import Kubenyx.Quorum.Reconcile
import Kubenyx.Quorum.JoinProbe
import Kubenyx.Lb.Args
import Kubenyx.Lb.Health
import Kubenyx.Lb.Dial
import Kubenyx.Lb.Pump
import Kubenyx.Lb.Drain
import Kubenyx.Clockstep.Poke
import Kubenyx.Ready.Args
import Kubenyx.Ready.Wrapper
import Kubenyx.Snap.Identity
import Kubenyx.Snap.Take
import Kubenyx.Snap.MeshCut
import Kubenyx.Snap.MeshResume
import Kubenyx.Snap.Api
import Kubenyx.Snap.Owned
import Kubenyx.Snap.RunManifest
import Kubenyx.Snap.Mesh
import Kubenyx.Snap.Convention
import Kubenyx.Snap.MeshOrder
import Kubenyx.Snap.Manifest
import Kubenyx.Snap.Kubeconfig
import Kubenyx.Snap.Template
import Kubenyx.Snap.CpuConfig
import Kubenyx.Snap.TimePokes
import Kubenyx.Snap.Handoff
