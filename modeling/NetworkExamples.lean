import NetworkExamples.P2P.AbortFree
import NetworkExamples.P2P.AbortsSafety
import NetworkExamples.P2P.JointKeyGen
import NetworkExamples.P2P.PathReceives
import NetworkExamples.P2P.PathStatistics
import NetworkExamples.PeerToPeer.Queue
import NetworkExamples.PeerToPeer.Receive
import NetworkExamples.PeerToPeer.Send
import NetworkExamples.Pre.Utils
import NetworkExamples.Rpc.Board
import NetworkExamples.Rpc.Handler
import NetworkExamples.Rpc.Retry
import NetworkExamples.ThreshNet.KeyGen
import NetworkExamples.ThreshNet.ThreshAborts
import NetworkExamples.P2P.CoMeasurement
import NetworkExamples.ThreshNet.Measure
import NetworkExamples.ThreshNet.MeasureVerdict
import NetworkExamples.P2P.NetworkMeasure
import NetworkExamples.P2P.NetworkMeasureVerdict
import NetworkExamples.Pre.AccessControl
import NetworkExamples.Pre.Chain
import NetworkExamples.Pre.ChainRun
import NetworkExamples.Pre.Survival
import NetworkExamples.P2P.RegisterFunctions
import NetworkExamples.P2P.RegisterSums
import NetworkExamples.PeerToPeer.AddNodes
import NetworkExamples.PeerToPeer.Connections
import NetworkExamples.Pre.Closed
import NetworkExamples.Pre.EventLoops
import NetworkExamples.Pre.Hex
import NetworkExamples.Pre.ReKeys
import NetworkExamples.Pre.RouteCache
import NetworkExamples.Pre.RoutingTable
import NetworkExamples.PeerToPeer.SplitPieces
import NetworkExamples.ThreshNet.SecretShares
import NetworkExamples.Multihop.ParamsSound
import NetworkExamples.PeerToPeer.NodeServer
import NetworkExamples.ThreshNet.AbortsServer
import NetworkExamples.TestNets.CycleIncrement
import NetworkExamples.TestNets.TwoWayIncrement
import NetworkExamples.TestNets.BroadcastIncrement
import NetworkExamples.TestNets.Dropouts
