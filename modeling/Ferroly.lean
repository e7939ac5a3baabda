import Ferroly.Guarantees.Json
import Ferroly.Guarantees.Yaml
import Ferroly.Guarantees.Toml
import Ferroly.Guarantees.Config
import Ferroly.Guarantees.Server
import Ferroly.Guarantees.Response
import Ferroly.Guarantees.MessageBody
import Ferroly.Guarantees.Request
import Ferroly.Guarantees.Memory
import Ferroly.Guarantees.KeepAlive
import Ferroly.Guarantees.Pool
import Ferroly.Guarantees.Download
import Ferroly.Guarantees.Send
import Ferroly.Guarantees.Router
import Ferroly.Guarantees.Dependencies
import Ferroly.Guarantees.Orchestration
import Ferroly.Guarantees.Crowd
import Ferroly.Guarantees.Bus
import Ferroly.Guarantees.Breaker
import Ferroly.Guarantees.ModelRouter
import Ferroly.Guarantees.WebSocket
import Ferroly.Guarantees.Sse
import Ferroly.Guarantees.ProviderLines
import Ferroly.Guarantees.Dispatch
import Ferroly.Guarantees.RestServer
import Ferroly.Guarantees.Jwt
import Ferroly.Guarantees.Xml
import Ferroly.Guarantees.YamlLines
import Ferroly.Guarantees.RateLimit
import Ferroly.Guarantees.Query
import Ferroly.Guarantees.Retry
import Ferroly.Guarantees.Template
import Ferroly.Guarantees.BreakerHistory
import Ferroly.Guarantees.Streaming
import Ferroly.Guarantees.VectorStore
import Ferroly.Guarantees.TopoOrder
import Ferroly.Guarantees.Health
import Ferroly.Guarantees.Log
