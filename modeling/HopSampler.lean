import HopSampler.Random.Shuffle
import HopSampler.Random.Subset
import HopSampler.SortedMap
import HopSampler.Decimal.Layout
import HopSampler.Text.Duration
import HopSampler.Placement
import HopSampler.IdMap
import HopSampler.Graph
import HopSampler.Json.Reader
import HopSampler.Json.Printer
import HopSampler.Json.Decode
import HopSampler.Feature.Store
import HopSampler.Dataset.Codec
import HopSampler.Dataset.Ring
import HopSampler.Sampling.Codec
import HopSampler.Sampling.Request
import HopSampler.Sampling.Output
import HopSampler.Sampling.Sampler
import HopSampler.Loading.Pipeline
import HopSampler.Loading.Stream
import HopSampler.Main
import HopSampler.Proofs.Maps
import HopSampler.Proofs.Rosters
import HopSampler.Proofs.Following
import HopSampler.Proofs.Tasks
import HopSampler.Proofs.Stages
import HopSampler.Proofs.Choosing
import HopSampler.Proofs.Listing
import HopSampler.Proofs.Checks
import HopSampler.Proofs.Requests
import HopSampler.Proofs.Layers
import HopSampler.Proofs.Fidelity
import HopSampler.Proofs.Layering
import HopSampler.Proofs.FanOut
import HopSampler.Proofs.Layouts
import HopSampler.Proofs.RepeatedReversal
import HopSampler.Proofs.Validation
import HopSampler.Proofs.Supervision
import HopSampler.Proofs.Records
import HopSampler.Proofs.FirstSeen
import HopSampler.Proofs.Distance
import HopSampler.Proofs.Neighborhood
import HopSampler.Proofs.Searching
import HopSampler.Proofs.Accounts
import HopSampler.Proofs.Blocks
import HopSampler.Proofs.Delays
import HopSampler.Proofs.Backings
import HopSampler.Proofs.Lookups
import HopSampler.Proofs.Placements
import HopSampler.Proofs.Batches
import HopSampler.Proofs.Streaming
import HopSampler.Proofs.Blueprints
import HopSampler.Proofs.LastStage
import HopSampler.Proofs.SeedOrder
import HopSampler.Proofs.HopPrefix
import HopSampler.Proofs.Shares
import HopSampler.Proofs.BackingTrees
import HopSampler.Proofs.Untrusted
import HopSampler.Proofs.Chunks
import HopSampler.Proofs.Epochs
import HopSampler.Proofs.RowTrees
import HopSampler.Proofs.Datasets
import HopSampler.Proofs.StreamSeeds
import HopSampler.CompressedRows
import HopSampler.Proofs.IdMaps
import HopSampler.Proofs.CompressedRows
import HopSampler.Proofs.FeatureTables
import HopSampler.Proofs.Candidates
import HopSampler.Proofs.Names
import HopSampler.Proofs.GraphStats
import HopSampler.Proofs.Decoding
import HopSampler.Proofs.ConfigFiles
import HopSampler.Proofs.Rings
import HopSampler.Proofs.RingBatches
import HopSampler.Proofs.Reports
import HopSampler.Proofs.Redrawing
import HopSampler.Proofs.PlacementTexts
import HopSampler.Proofs.SplitSizes
import HopSampler.Proofs.JsonTokens
import HopSampler.Proofs.JsonTexts
import HopSampler.Proofs.DatasetFiles
