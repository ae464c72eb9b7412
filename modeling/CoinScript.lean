import CoinScript.Chunk.Display
import CoinScript.Chunk.Encoding
import CoinScript.Chunk.Minimal
import CoinScript.Proofs.BuiltScript
import CoinScript.Proofs.Conservation
import CoinScript.Proofs.Cutting
import CoinScript.Proofs.Disassembly
import CoinScript.Proofs.Enforcement
import CoinScript.Proofs.Extension
import CoinScript.Proofs.Fault
import CoinScript.Proofs.FewestOutputs
import CoinScript.Proofs.JoinedChunks
import CoinScript.Proofs.LargestFirst
import CoinScript.Proofs.Loosening
import CoinScript.Proofs.Overflow
import CoinScript.Proofs.PlacedReading
import CoinScript.Proofs.PushedNumber
import CoinScript.Proofs.ReadyChunks
import CoinScript.Proofs.Rebuilding
import CoinScript.Proofs.RoundTrip
import CoinScript.Proofs.ShortestNumber
import CoinScript.Proofs.ShortestPush
import CoinScript.Proofs.Splitting
import CoinScript.Proofs.StatedLength
import CoinScript.Proofs.ToppingUp
import CoinScript.Proofs.Validity
import CoinScript.Proofs.Wording
import CoinScript.Random.Sample
import CoinScript.Script.Builder
import CoinScript.Script.Disassembly
import CoinScript.Script.Validation
import CoinScript.Wallet.Pool
