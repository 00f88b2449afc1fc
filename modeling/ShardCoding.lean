import ShardCoding.ByteMatrix.Basic
import ShardCoding.ByteMatrix.Inverse
import ShardCoding.Code.Basic
import ShardCoding.Code.Decode
import ShardCoding.Code.Maintenance
import ShardCoding.Coder.Basic
import ShardCoding.Coder.Counters
import ShardCoding.Coder.Observer
import ShardCoding.Command.Basic
import ShardCoding.Command.Decode
import ShardCoding.Command.Encode
import ShardCoding.Command.Error
import ShardCoding.Command.Plan
import ShardCoding.Command.Repair
import ShardCoding.Command.Shards
import ShardCoding.Command.Verify
import ShardCoding.CommandLine.Arguments
import ShardCoding.CommandLine.Request
import ShardCoding.Decimal.Binary
import ShardCoding.Decimal.Read
import ShardCoding.Decimal.Shortest
import ShardCoding.Decimal.Text
import ShardCoding.Digest.Basic
import ShardCoding.Digest.Sha256
import ShardCoding.Effect
import ShardCoding.Environment
import ShardCoding.Error
import ShardCoding.Event
import ShardCoding.Files.Basic
import ShardCoding.Files.Tree
import ShardCoding.GF256
import ShardCoding.Json.Basic
import ShardCoding.Json.Lexer
import ShardCoding.Json.Reader
import ShardCoding.Json.Record
import ShardCoding.Json.Values
import ShardCoding.Json.Writer
import ShardCoding.Layout
import ShardCoding.Main
import ShardCoding.Manifest
import ShardCoding.Network.CandidateText
import ShardCoding.Network.Context
import ShardCoding.Network.Health
import ShardCoding.Network.Peer
import ShardCoding.Network.Selection
import ShardCoding.Path
import ShardCoding.Program
import ShardCoding.Proofs.ByteMatrix.Vector
import ShardCoding.Proofs.GF256.Field
import ShardCoding.Proofs.GF256.Orbit
import ShardCoding.Scheme
import ShardCoding.Settings.Basic
import ShardCoding.Settings.File
import ShardCoding.Stream.Decode
import ShardCoding.Stream.DigestSink
import ShardCoding.Stream.Encode
import ShardCoding.Stream.Endpoint
import ShardCoding.Stream.Options
import ShardCoding.Text.Blank
import ShardCoding.Time
import ShardCoding.Toml.Basic
import ShardCoding.Toml.Quoted
import ShardCoding.Toml.Reader
import ShardCoding.Toml.Record
import ShardCoding.Toml.Scalar
import ShardCoding.Proofs.ByteMatrix.Inverse
import ShardCoding.Proofs.Code.Codeword
import ShardCoding.Proofs.Code.Reconstruction
import ShardCoding.Proofs.Code.Recoverability
import ShardCoding.Proofs.Code.RoundTrip
import ShardCoding.Proofs.Code.Verification
import ShardCoding.Proofs.Code.Detection
import ShardCoding.Proofs.Stream.Chunks
import ShardCoding.Proofs.Stream.Encode
import ShardCoding.Proofs.Stream.Decode
import ShardCoding.Proofs.Stream.RoundTrip
import ShardCoding.Proofs.Code.Repair
import ShardCoding.Proofs.Stream.Codeword
import ShardCoding.Proofs.Code.Linearity
import ShardCoding.Proofs.Code.Uniqueness
import ShardCoding.Proofs.Stream.SingleChunk
import ShardCoding.Proofs.Coder.Perform
import ShardCoding.Proofs.Stream.Failure
import ShardCoding.Proofs.Stream.Outcome
import ShardCoding.Proofs.Stream.Truncation
import ShardCoding.Proofs.Code.Effects
import ShardCoding.Proofs.Stream.Progress
import ShardCoding.Proofs.Stream.Buffers
import ShardCoding.Proofs.Coder.Nesting
import ShardCoding.Proofs.Coder.Session
import ShardCoding.Proofs.Coder.Accounting
import ShardCoding.Proofs.Coder.Digests
import ShardCoding.Proofs.Coder.Announcements
import ShardCoding.Proofs.Coder.Locking
import ShardCoding.Proofs.Network.History
import ShardCoding.Proofs.Digest.Hex
import ShardCoding.Proofs.Manifest.Description
import ShardCoding.Proofs.Json.Digits
import ShardCoding.Proofs.Json.RoundTrip
import ShardCoding.Proofs.Time
import ShardCoding.Proofs.Json.Record
import ShardCoding.Proofs.Manifest.RoundTrip
import ShardCoding.Proofs.Json.Tokens
import ShardCoding.Proofs.ByteMatrix.Product
import ShardCoding.Proofs.Path
import ShardCoding.Proofs.Layout
import ShardCoding.Proofs.Files.Walk
import ShardCoding.Proofs.Files.Change
import ShardCoding.Proofs.Command.Run
import ShardCoding.Proofs.Files.Shards
import ShardCoding.Proofs.Command.Shards
import ShardCoding.Proofs.Command.Encode
import ShardCoding.Proofs.Command.Damage
import ShardCoding.Proofs.Command.Decode
import ShardCoding.Proofs.Command.Verify
import ShardCoding.Proofs.Command.Repair
import ShardCoding.Proofs.Code.Restoration
import ShardCoding.Proofs.Coder.Repair
import ShardCoding.Proofs.Stream.Layout
import ShardCoding.Proofs.Code.SelectionOrder
import ShardCoding.Proofs.Network.Recommendation
import ShardCoding.Proofs.Network.Average
import ShardCoding.Proofs.Network.Score
import ShardCoding.Proofs.Network.Ranking
import ShardCoding.Proofs.Code.Evaluation
import ShardCoding.Proofs.Code.Strict
import ShardCoding.Proofs.Code.Contract
import ShardCoding.Proofs.Coder.Log
import ShardCoding.Proofs.Coder.Emissions
import ShardCoding.Proofs.Digest.Spelling
import ShardCoding.Proofs.Manifest.Check
import ShardCoding.Proofs.Manifest.Update
import ShardCoding.Proofs.Manifest.Sizes
import ShardCoding.Proofs.Files.Naming
import ShardCoding.Proofs.Digest.Writer
import ShardCoding.Proofs.GF256.Accumulation
import ShardCoding.Proofs.GF256.Powers
