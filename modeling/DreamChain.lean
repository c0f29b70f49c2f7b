import DreamChain.Chain.QuorumBacking
import DreamChain.Chain.ScheduleHandover
import DreamChain.Chain.ForkPersistence
import DreamChain.Chain.UnappliedTransactions
import DreamChain.Chain.RequiredKeys
import DreamChain.Chain.PermissionLinks
import DreamChain.Chain.PermissionControl
import DreamChain.Chain.ResourceWeights
import DreamChain.Chain.ElasticLimits
import DreamChain.Chain.FeatureActivation
import DreamChain.Chain.ActionScheduling
import DreamChain.Chain.TableCalls
import DreamChain.Dreamoji.Flags
import DreamChain.Dreamoji.Licences
import DreamChain.Dreamoji.Serials
import DreamChain.Chain.MerkleRoots
import DreamChain.Chain.SignatureKeys
import DreamChain.Chain.AbiEncoding
import DreamChain.Chain.AbiBounds
import DreamChain.Chain.ActorLists
import DreamChain.Chain.CodeObjects
import DreamChain.DrmSharp.SerializerCache
import DreamChain.Net.SyncManager
import DreamChain.Producer.Watermarks
import DreamChain.Chain.BlockStores
import DreamChain.Dreamoji.Counts
import DreamChain.Dreamoji.Fees
import DreamChain.StateHistory.TraceLog
import DreamChain.Chain.Snapshot
import DreamChain.DrmSharp.Decimals
import DreamChain.DrmSharp.Codecs
import DreamChain.DrmSharp.Names
