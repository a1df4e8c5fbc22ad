import Statute.Base.Bytes
import Statute.Base.Cover
import Statute.Base.Descent
import Statute.Base.Netip
import Statute.Base.Header
import Statute.Base.HostPort
import Statute.Base.UrlPath
import Statute.Base.StableSort
import Statute.Base.TextMap
import Statute.Base.Machine
import Statute.Docker.Match
import Statute.Docker.Lex
import Statute.Docker.Rule
import Statute.Docker.RuleMeaning
import Statute.Docker.Envelope
import Statute.Docker.EnvelopeSound
import Statute.Docker.Labels
import Statute.Docker.Extracted
import Statute.Provider.Dispatch
import Statute.Provider.Quarantine
import Statute.Provider.BuildTable
import Statute.Provider.Reconcile
import Statute.Lifecycle.Workload
import Statute.Lifecycle.Activity
import Statute.Lifecycle.Coherence
import Statute.Lifecycle.Settlement
import Statute.Lifecycle.Evidence
import Statute.Lifecycle.IdleStop
import Statute.Lifecycle.Stale
import Statute.Lifecycle.RequestScope
import Statute.Client.Address
import Statute.Client.Selection
import Statute.Ingress.Forwarded
import Statute.Redirect.Location
import Statute.Redirect.SameOrigin
import Statute.Base.TextSet
import Statute.Tls.Names
import Statute.Tls.ClientAuth
import Statute.Base.Heap
import Statute.Base.Chain
import Statute.Cache.Fields
import Statute.Cache.Directives
import Statute.Cache.Freshness
import Statute.Cache.Store
import Statute.Cache.Handler
import Statute.Cache.Retained
import Statute.Cache.Accounting
import Statute.Cache.Custody
import Statute.Cache.Writer
import Statute.Cache.Accounted
import Statute.Base.Apportion
import Statute.Pool.Weighted
import Statute.Docker.Containment
import Statute.Docker.Canonical
import Statute.Provider.Specificity
import Statute.Base.IndexedHeap
import Statute.Limit.Buckets
import Statute.Limit.Rate
import Statute.Base.Reader
import Statute.Retry.RequestBody
import Statute.Retry.Attempts
import Statute.RequestBuffer.Consume
import Statute.RequestBuffer.Manager
import Statute.Base.Window
import Statute.Pool.Passive
import Statute.Base.Percent
import Statute.Ingress.Escapes
import Statute.Base.CleanPath
import Statute.Rewrite.PathOps
import Statute.Rewrite.Coherent
import Statute.Rewrite.Strip
import Statute.Precondition.EntityTag
import Statute.Precondition.Status
import Statute.Encoding.Negotiation
import Statute.Encoding.Metadata
import Statute.Encoding.Writer
import Statute.Encoding.Strength
import Statute.Tls.CertRouter
import Statute.Base.Postorder
import Statute.Migrate.Inventory
import Statute.Cache.Readers
import Statute.Lifecycle.Backoff
import Statute.Migrate.Chain
import Statute.Migrate.Indexing
import Statute.Migrate.Search
import Statute.Rewrite.RedirectFrame
import Statute.Middleware.Tree
import Statute.Middleware.Order
import Statute.Middleware.Credentials
import Statute.Middleware.ResponseHeaders
import Statute.Tls.Persist
