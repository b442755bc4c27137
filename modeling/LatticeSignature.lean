import LatticeSignature.Params
import LatticeSignature.Bytes
import LatticeSignature.Bytes.Hex
import LatticeSignature.Xof
import LatticeSignature.Keccak
import LatticeSignature.Shake
import LatticeSignature.Residue
import LatticeSignature.Rounding
import LatticeSignature.Poly
import LatticeSignature.Poly.Transform
import LatticeSignature.BitStream
import LatticeSignature.Poly.Packed
import LatticeSignature.Poly.Sampler
import LatticeSignature.PolyVec
import LatticeSignature.Hint
import LatticeSignature.Layout
import LatticeSignature.Hasher
import LatticeSignature.Hasher.Pool
import LatticeSignature.Event
import LatticeSignature.Error
import LatticeSignature.Protocol
import LatticeSignature.KeyPair
import LatticeSignature.Signing
import LatticeSignature.Verification
import LatticeSignature.Text.Record
import LatticeSignature.Seed
import LatticeSignature.Envelope
import LatticeSignature.Standard.Keys
import LatticeSignature.Standard.SignerConfig
import LatticeSignature.Standard.Signer
import LatticeSignature.Legacy.Signer
import LatticeSignature.Proofs.Words
import LatticeSignature.Proofs.Residue
import LatticeSignature.Proofs.Rq
import LatticeSignature.Proofs.Butterfly
import LatticeSignature.Proofs.Interpolation
import LatticeSignature.Proofs.Transform
import LatticeSignature.Proofs.Poly
import LatticeSignature.Proofs.BitStream
import LatticeSignature.Proofs.Packed
import LatticeSignature.Proofs.Rounding
import LatticeSignature.Proofs.Hint
import LatticeSignature.Proofs.Layout
import LatticeSignature.Proofs.Sampler
import LatticeSignature.Proofs.Stream
import LatticeSignature.Proofs.Challenge
import LatticeSignature.Proofs.Commitment
import LatticeSignature.Proofs.Protocol
import LatticeSignature.Proofs.Verification
import LatticeSignature.Proofs.KeyPair
import LatticeSignature.Proofs.Response
import LatticeSignature.Proofs.Signing
import LatticeSignature.Proofs.Binding
import LatticeSignature.Proofs.Completeness
import LatticeSignature.Proofs.WellFormed
import LatticeSignature.Proofs.SharedHasher
import LatticeSignature.Proofs.Lending
import LatticeSignature.Proofs.Checked.Basic
import LatticeSignature.Proofs.Checked.Residue
import LatticeSignature.Proofs.Checked.Transform
import LatticeSignature.Proofs.Checked.Poly
import LatticeSignature.Proofs.Checked.BitStream
import LatticeSignature.Proofs.Checked.Hint
import LatticeSignature.Proofs.Checked.Layout
import LatticeSignature.Proofs.Checked.Sampler
import LatticeSignature.Proofs.Checked.Commitment
import LatticeSignature.Proofs.Checked.Protocol
import LatticeSignature.Proofs.Evaluation
import LatticeSignature.Proofs.Reconciliation
import LatticeSignature.Proofs.Envelope
import LatticeSignature.Proofs.ChallengeProduct
import LatticeSignature.Proofs.Support
import LatticeSignature.Proofs.Offset
import LatticeSignature.Proofs.Candidates
import LatticeSignature.Proofs.Report
import LatticeSignature.Proofs.Seed
import LatticeSignature.Proofs.Representatives
import LatticeSignature.Proofs.Buckets
import LatticeSignature.Proofs.Accumulator
import LatticeSignature.Proofs.Masks
