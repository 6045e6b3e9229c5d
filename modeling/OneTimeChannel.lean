import OneTimeChannel.Association.Basic
import OneTimeChannel.Association.KeyPlan
import OneTimeChannel.Association.Slots
import OneTimeChannel.Bytes
import OneTimeChannel.Channel.Basic
import OneTimeChannel.Channel.Decode
import OneTimeChannel.Channel.Encode
import OneTimeChannel.Channel.Failure
import OneTimeChannel.Channel.InPlace
import OneTimeChannel.Cipher.Algorithm
import OneTimeChannel.Cipher.Context
import OneTimeChannel.Cipher.EvaluationHash
import OneTimeChannel.CommandLine.Arguments
import OneTimeChannel.CommandLine.Folder
import OneTimeChannel.CommandLine.Host
import OneTimeChannel.CommandLine.Run
import OneTimeChannel.Compression.Block
import OneTimeChannel.Compression.Checksum
import OneTimeChannel.Compression.Codec
import OneTimeChannel.Compression.Delivery
import OneTimeChannel.Compression.Frame
import OneTimeChannel.Compression.Stream
import OneTimeChannel.Config
import OneTimeChannel.Gf2.BinaryField
import OneTimeChannel.Gf2.Element
import OneTimeChannel.Gf2.FixedFactor
import OneTimeChannel.Gf2.Width
import OneTimeChannel.Key
import OneTimeChannel.Keys.Buffer
import OneTimeChannel.Keys.Source
import OneTimeChannel.Keys.Stock
import OneTimeChannel.Log
import OneTimeChannel.Main
import OneTimeChannel.Message
import OneTimeChannel.Proofs.Association.Storage
import OneTimeChannel.Proofs.Channel.AnnouncedLength
import OneTimeChannel.Proofs.Channel.Configured
import OneTimeChannel.Proofs.Channel.Decode
import OneTimeChannel.Proofs.Channel.Delivery
import OneTimeChannel.Proofs.Channel.Directions
import OneTimeChannel.Proofs.Channel.Dispatch
import OneTimeChannel.Proofs.Channel.Encode
import OneTimeChannel.Proofs.Channel.InPlace
import OneTimeChannel.Proofs.Channel.KeyUse
import OneTimeChannel.Proofs.Channel.Ledger
import OneTimeChannel.Proofs.Channel.Reception
import OneTimeChannel.Proofs.Channel.Retry
import OneTimeChannel.Proofs.Channel.TamperDetection
import OneTimeChannel.Proofs.Cipher.Chunking
import OneTimeChannel.Proofs.Cipher.Context
import OneTimeChannel.Proofs.Cipher.Copies
import OneTimeChannel.Proofs.Cipher.Creation
import OneTimeChannel.Proofs.Cipher.EvaluationHash
import OneTimeChannel.Proofs.Cipher.HashPolynomial
import OneTimeChannel.Proofs.Cipher.Lifecycle
import OneTimeChannel.Proofs.Cipher.Recreation
import OneTimeChannel.Proofs.Cipher.Resumption
import OneTimeChannel.Proofs.Cipher.SchemeText
import OneTimeChannel.Proofs.Gf2.Evaluation
import OneTimeChannel.Proofs.Gf2.Field
import OneTimeChannel.Proofs.Gf2.FixedFactor
import OneTimeChannel.Proofs.Gf2.Irreducible
import OneTimeChannel.Proofs.Gf2.Laws
import OneTimeChannel.Proofs.Gf2.Product
import OneTimeChannel.Proofs.Gf2.Tables
import OneTimeChannel.Proofs.Keys.Addresses
import OneTimeChannel.Proofs.Keys.Availability
import OneTimeChannel.Proofs.Keys.Buffer
import OneTimeChannel.Proofs.Keys.Stock
import OneTimeChannel.Proofs.Message
import OneTimeChannel.Proofs.Record.Decoder
import OneTimeChannel.Proofs.Record.Encoder
import OneTimeChannel.Proofs.Record.Sequence
import OneTimeChannel.Proofs.Scheme
import OneTimeChannel.Proofs.Text.Digits
import OneTimeChannel.Proofs.Text.Utf8
import OneTimeChannel.Record.Decoder
import OneTimeChannel.Record.Encoder
import OneTimeChannel.Record.Stream
import OneTimeChannel.Scheme
import OneTimeChannel.Text.Blank
import OneTimeChannel.Text.Decimal
import OneTimeChannel.Text.Fields
import OneTimeChannel.Text.Hex
import OneTimeChannel.Text.Invisible
import OneTimeChannel.Text.Quoted
import OneTimeChannel.Text.Utf8
import OneTimeChannel.Toml.Reader
import OneTimeChannel.Toml.Scalar
import OneTimeChannel.Toml.Value
import OneTimeChannel.Toml.Writer
import OneTimeChannel.Proofs.Keys.Requests
import OneTimeChannel.Proofs.Keys.Fetching
import OneTimeChannel.Proofs.Keys.Refusal
import OneTimeChannel.Proofs.Keys.Rounds
import OneTimeChannel.Proofs.Keys.FirstInFirstOut
import OneTimeChannel.Proofs.Text.Cutting
import OneTimeChannel.Proofs.Text.Notation
import OneTimeChannel.Proofs.Scheme.Grammar
import OneTimeChannel.Proofs.Scheme.RoundTrip
import OneTimeChannel.Proofs.Cipher.NormalForm
import OneTimeChannel.Proofs.Association.Secrecy
import OneTimeChannel.Proofs.Record.Writing
import OneTimeChannel.Proofs.Record.Reading
import OneTimeChannel.Proofs.Association.Loading
import OneTimeChannel.Proofs.Channel.KeyPlan
import OneTimeChannel.Proofs.Gf2.Shifts
import OneTimeChannel.Proofs.Gf2.Views
import OneTimeChannel.Proofs.Channel.PayloadBound
