import TitanKV.Minikv.ReadPath
import TitanKV.Minikv.CrashSafety
import TitanKV.Minikv.PathIdentity
import TitanKV.Minikv.ManifestSessions
import TitanKV.Minikv.LevelRanges
import TitanKV.Minikv.BatchIsolation
import TitanKV.Minikv.ConcurrentGet
import TitanKV.Minikv.ChronicleOrder
import TitanKV.Minikv.ScanOrder
import TitanKV.Services.BatchPayload
import TitanKV.Minikv.BusinessPool
import TitanKV.Minikv.DeleteRange
import TitanKV.Minikv.Descriptors
import TitanKV.Minikv.FailedWrites
import TitanKV.Services.Rag.HnswReach
import TitanKV.Services.Auth.RefreshRace
import TitanKV.Services.Delivery
import TitanKV.Services.Rag.Retriever
import TitanKV.Services.Rag.Searchable
import TitanKV.Skynet.HealthCheck
import TitanKV.Gateway.RateLimit
import TitanKV.Gateway.ApiKeys
import TitanKV.Skynet.Responses
import TitanKV.Skynet.Malformed
import TitanKV.Skynet.Router
import TitanKV.Minikv.Versions
import TitanKV.Minikv.MergeVersions
import TitanKV.Services.ScanPayload
import TitanKV.Minikv.SSTableFinish
import TitanKV.Minikv.SSTableScan
import TitanKV.Minikv.BloomSidecar
import TitanKV.Minikv.EqualKeys
import TitanKV.Services.Rag.ChatTurns
import TitanKV.Services.Rag.Chunker
import TitanKV.Titan.Scan
import TitanKV.Minikv.BlockCache
import TitanKV.Minikv.KeyOrder
import TitanKV.Services.Observability
