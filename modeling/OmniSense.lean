import OmniSense.Events.Offsets
import OmniSense.Resolution.Redirects
import OmniSense.Retrieval.Coverage
import OmniSense.Connectors.Clusters
import OmniSense.Schema.History
import OmniSense.Workers.Replays
import OmniSense.Agents.Halts
import OmniSense.Connectors.Watermarks
import OmniSense.Ingest.Batching
import OmniSense.RateLimit.StandIn
import OmniSense.Resolution.OrderFree
import OmniSense.Retrieval.Dialects
import OmniSense.Reports.Versions
import OmniSense.Workers.Redelivery
import OmniSense.Signals.Pages
import OmniSense.Sync.Safety
import OmniSense.Sync.Convergence
import OmniSense.Investigations.Ending
import OmniSense.Investigations.Overwrites
import OmniSense.Investigations.Stranded
import OmniSense.Workers.Shutdown
import OmniSense.Tools.Interference
import OmniSense.RateLimit.Tightening
import OmniSense.Resolution.Symmetry
import OmniSense.Resolution.Unmerge
import OmniSense.Temporal.Pointers
import OmniSense.Temporal.Replay
import OmniSense.Investigations.Usage
import OmniSense.Agents.Spending
import OmniSense.Llm.Shedding
import OmniSense.Connectors.Probes
import OmniSense.Ingest.Aging
import OmniSense.Retrieval.Agreement
import OmniSense.Retrieval.Collapse
import OmniSense.Retrieval.ContextBuilder
import OmniSense.Retrieval.Edges
import OmniSense.Retrieval.Extents
import OmniSense.Schema.Statements
import OmniSense.Stream.Terminal
import OmniSense.Agents.WorkingBudget
import OmniSense.Analytics.Brandes
import OmniSense.Connectors.Retries
import OmniSense.Analytics.Louvain
import OmniSense.Connectors.SingleFlight
import OmniSense.Enrichment.MapperContainment
import OmniSense.Enrichment.UrlMerging
import OmniSense.Retrieval.Metrics
import OmniSense.Retrieval.RowOrder
import OmniSense.Workers.Scheduler
import OmniSense.Workers.Names
import OmniSense.Evidence.Confidence
import OmniSense.Enrichment.Versions
import OmniSense.Sync.Catchup
import OmniSense.Enrichment.Whitespace
import OmniSense.Tools.Rescrubbing
import OmniSense.Agents.Retry
import OmniSense.Agents.Scratchpad
import OmniSense.Llm.Fallback
import OmniSense.Tools.Envelope
