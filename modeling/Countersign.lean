import Countersign.Bytes
import Countersign.Currency.FixedPoint
import Countersign.Currency.Limbs
import Countersign.Curve.Edwards
import Countersign.Curve.Signature
import Countersign.Hash.Blake2b
import Countersign.Hash.Sha512
import Countersign.Message.Code
import Countersign.Message.Codec
import Countersign.Message.Flags
import Countersign.Message.Request
import Countersign.Message.Response
import Countersign.Message.Version
import Countersign.Numeral
import Countersign.Proofs.Accounting
import Countersign.Proofs.Amounts
import Countersign.Proofs.BoundedQueue
import Countersign.Proofs.Budget
import Countersign.Proofs.Change
import Countersign.Proofs.Codecs
import Countersign.Proofs.Coherence
import Countersign.Proofs.Commitment
import Countersign.Proofs.Decodings
import Countersign.Proofs.Delimited
import Countersign.Proofs.Delivery
import Countersign.Proofs.EitherFormat
import Countersign.Proofs.Exhaustion
import Countersign.Proofs.Fields
import Countersign.Proofs.Finality
import Countersign.Proofs.FixedPoint
import Countersign.Proofs.Invariants
import Countersign.Proofs.KeyPaths
import Countersign.Proofs.Listing
import Countersign.Proofs.LongDivision
import Countersign.Proofs.Moves
import Countersign.Proofs.Numbering
import Countersign.Proofs.Numbers
import Countersign.Proofs.Numerals
import Countersign.Proofs.Overflow
import Countersign.Proofs.Passage
import Countersign.Proofs.Pending
import Countersign.Proofs.Pieces
import Countersign.Proofs.Reading
import Countersign.Proofs.Reasons
import Countersign.Proofs.Release
import Countersign.Proofs.Rendering
import Countersign.Proofs.Requests
import Countersign.Proofs.Review
import Countersign.Proofs.Safety
import Countersign.Proofs.Sections
import Countersign.Proofs.Stability
import Countersign.Proofs.Survey
import Countersign.Proofs.TwoRuns
import Countersign.Proofs.V1Grammar
import Countersign.Proofs.V2Grammar
import Countersign.Signer.Event
import Countersign.Signer.Operation
import Countersign.Signer.Refusal
import Countersign.Signer.Reply
import Countersign.Signer.Run
import Countersign.Signer.Session
import Countersign.Txn.Access
import Countersign.Txn.Buffer
import Countersign.Txn.Checked
import Countersign.Txn.DecodeError
import Countersign.Txn.Decoder
import Countersign.Txn.Decoding
import Countersign.Txn.Element
import Countersign.Txn.Field
import Countersign.Txn.Format
import Countersign.Txn.Layout
import Countersign.Txn.Output
import Countersign.Txn.Parse
import Countersign.Txn.Part
import Countersign.Txn.Queue
import Countersign.Txn.Reader
import Countersign.Txn.Schedule
import Countersign.Txn.Transaction
import Countersign.Txn.Transcript
import Countersign.Txn.Turn
import Countersign.Txn.V1
import Countersign.Txn.V1.Transaction
import Countersign.Txn.V2
import Countersign.Txn.V2.Transaction
import Countersign.Wallet.Address
import Countersign.Wallet.Derivation
