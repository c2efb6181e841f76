import ChunkLedger.Disk.Writing
import ChunkLedger.Main
import ChunkLedger.Wire.Message
import ChunkLedger.Wire.Peer
import ChunkLedger.Proofs.Block.Preimage
import ChunkLedger.Proofs.Chain.Built
import ChunkLedger.Proofs.Chain.Tamper
import ChunkLedger.Proofs.Merkle.Levels
import ChunkLedger.Proofs.Merkle.Soundness
import ChunkLedger.Proofs.Mining.Race
import ChunkLedger.Proofs.Mining.Attempt
import ChunkLedger.Proofs.Json.Number
import ChunkLedger.Proofs.Json.Text
import ChunkLedger.Proofs.Json.Token
import ChunkLedger.Proofs.Json.Doc
import ChunkLedger.Proofs.Json.Record
import ChunkLedger.Proofs.Hash.Hex
import ChunkLedger.Proofs.Time.Calendar
import ChunkLedger.Proofs.Time.Rfc3339
import ChunkLedger.Proofs.Block.Record
import ChunkLedger.Proofs.Chain.File
import ChunkLedger.Proofs.Chain.Replay
import ChunkLedger.Proofs.Json.Sorted
import ChunkLedger.Proofs.Merkle.Completeness
import ChunkLedger.Proofs.Json.Line
import ChunkLedger.Proofs.Wire.Package
import ChunkLedger.Proofs.Wire.Payload
import ChunkLedger.Proofs.Wire.Message
import ChunkLedger.Proofs.Wire.Stream
import ChunkLedger.Proofs.Wire.Replica
import ChunkLedger.Proofs.Mining.Sealing
import ChunkLedger.Proofs.Chain.Lookup
import ChunkLedger.Proofs.Chain.Offers
import ChunkLedger.Proofs.Chain.Mined
import ChunkLedger.Proofs.Merkle.Reached
import ChunkLedger.Proofs.Wire.Delivery
import ChunkLedger.Proofs.Merkle.Expansion
import ChunkLedger.Proofs.Command.World
import ChunkLedger.Proofs.Disk.Content
import ChunkLedger.Proofs.Disk.Stopping
import ChunkLedger.Proofs.Chain.Saving
import ChunkLedger.Proofs.Command.Files
import ChunkLedger.Proofs.Command.Upload
import ChunkLedger.Proofs.Command.Prove
import ChunkLedger.Proofs.Merkle.Commitment
import ChunkLedger.Proofs.Merkle.Binding
import ChunkLedger.Proofs.Wire.Packing
import ChunkLedger.Proofs.Mining.Difficulty
import ChunkLedger.Proofs.Chunk.Cut
import ChunkLedger.Proofs.Wire.Envelope
import ChunkLedger.Proofs.Chain.Links
import ChunkLedger.Proofs.Mining.GivingUp
import ChunkLedger.Proofs.Mining.Search
import ChunkLedger.Proofs.Mining.Cancellation
import ChunkLedger.Proofs.Hash.HexTexts
import ChunkLedger.Proofs.Json.HexReaders
import ChunkLedger.Proofs.Wire.Threads
import ChunkLedger.Proofs.Wire.Snapshot
