import Mantle.Db.Lease
import Mantle.Mesh.Describe
import Mantle.Mesh.Authority
import Mantle.Auth.Tenancy
import Mantle.Db.Poll
import Mantle.Mesh.Converge
import Mantle.Search.MasterKey
import Mantle.Search.Frames
import Mantle.Search.PathNames
import Mantle.Search.Bindings
import Mantle.Access.Memo
import Mantle.Search.Ingest
import Mantle.Events.Redact
import Mantle.Access.Revoke
import Mantle.Events.Visible
import Mantle.Auth.Provenance
import Mantle.Mesh.Demand
import Mantle.Content.Mirror
import Mantle.Search.Cells
import Mantle.Content.Tier
import Mantle.Service.Follow
import Mantle.Access.Dual
import Mantle.Access.Shared
import Mantle.Mesh.Doors
import Mantle.Shard.Pulls
import Mantle.Shard.Cache
import Mantle.Access.Paths
import Mantle.Mesh.Fold
import Mantle.Mesh.Carrier
import Mantle.Mesh.Directory
import Mantle.Access.Bearer
import Mantle.Service.Sharing
import Mantle.Access.Invoke
import Mantle.Search.Stems
import Mantle.Search.Chunking
import Mantle.Search.Modifiers
import Mantle.Db.MidKey
import Mantle.Service.Ordering
import Mantle.Service.Retried
import Mantle.Events.Ledger
import Mantle.Events.Offers
import Mantle.Search.Engine
import Mantle.Access.Asked
import Mantle.Search.Echo
