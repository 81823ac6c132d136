import FogMarket.Library.Transition
import FogMarket.Library.Map
import FogMarket.Library.Lists
import FogMarket.Library.Hierarchy
import FogMarket.Library.Hierarchy.Graph
import FogMarket.Library.Flooding
import FogMarket.Library.Echo.Basic
import FogMarket.Library.Echo.Once
import FogMarket.Library.Echo.Complete
import FogMarket.Library.Echo.Progress
import FogMarket.Library.Echo.Flood
import FogMarket.Library.Echo.Settled
import FogMarket.Library.Search
import FogMarket.Library.Sorting
import FogMarket.Library.Window
import FogMarket.Library.Median
import FogMarket.Library.Decimal
import FogMarket.Library.ExtendedReal
import FogMarket.Library.Json
import FogMarket.Library.Except
import FogMarket.Library.Dict
import FogMarket.Library.Dijkstra
import FogMarket.Library.Packing
import FogMarket.Library.Numbering
import FogMarket.Library.Writes
import FogMarket.Library.Returns
import FogMarket.Library.Rationals
import FogMarket.Objects.Sla
import FogMarket.Objects.Bid
import FogMarket.Objects.Quantity
import FogMarket.Objects.FunctionDefinition
import FogMarket.Market.Auction
import FogMarket.Market.FogNode.Basic
import FogMarket.Market.FogNode.Traversal
import FogMarket.Market.FogNode.Serve
import FogMarket.Market.FogNode.CheckTree
import FogMarket.Market.FogNode.Rooted
import FogMarket.Market.FogNode.Rollback
import FogMarket.Market.FogNode.Registering
import FogMarket.Market.FogNode.Settled
import FogMarket.Market.FogNode.Concurrent
import FogMarket.Market.FogNode.Repeated
import FogMarket.Market.FaaS
import FogMarket.Objects.Function
import FogMarket.Fog.FunctionTracking
import FogMarket.Fog.Load
import FogMarket.Fog.ResourceTracking
import FogMarket.Fog.Node
import FogMarket.Fog.Steps
import FogMarket.Fog.InFlight
import FogMarket.Fog.LifeCycle
import FogMarket.Fog.Removal
import FogMarket.Fog.Bounds
import FogMarket.Fog.Ledger
import FogMarket.Fog.Accounting
import FogMarket.Fog.Panics
import FogMarket.Fog.Replicas
import FogMarket.Fog.QuadraticRates
import FogMarket.Fog.Utilisation
import FogMarket.Fog.Expiry
import FogMarket.Fog.Latency
import FogMarket.Fog.PacketLoss
import FogMarket.Fog.MovingMedian
import FogMarket.Fog.Placement
import FogMarket.Fog.TcpLatency
import FogMarket.Fog.LatencyEstimation
import FogMarket.Fog.Topology
import FogMarket.Fog.Overlay
import FogMarket.Fog.Propagation
import FogMarket.Fog.Faults
import FogMarket.Fog.Exchange
import FogMarket.Fog.Sale
import FogMarket.Fog.Terms
import FogMarket.Fog.Fresh
import FogMarket.Fog.MinCpuRandom
import FogMarket.Fog.Sequential
import FogMarket.Fog.EdgeFirst
import FogMarket.Fog.EdgeFurthest
import FogMarket.Fog.K8s
import FogMarket.Marketplace.Basic
import FogMarket.Marketplace.Steps
import FogMarket.Marketplace.Exchanges
import FogMarket.Marketplace.Sales
import FogMarket.Marketplace.Consistent
import FogMarket.Marketplace.Agreement
import FogMarket.Marketplace.Orderly
import FogMarket.Marketplace.Outcome
import FogMarket.Testbed.Cron
import FogMarket.Testbed.Network
import FogMarket.Testbed.Hosts
import FogMarket.Testbed.Slots
import FogMarket.Testbed.Links
import FogMarket.Testbed.Net
import FogMarket.Testbed.Iot
import FogMarket.Testbed.Netem
import FogMarket.Testbed.Emulation
import FogMarket.Testbed.Deployment
import FogMarket.Testbed.Generation
import FogMarket.Library.Successor
import FogMarket.Testbed.Chain
import FogMarket.Testbed.Pipelines
