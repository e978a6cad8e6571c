import LedgerSigning.Signing
import LedgerSigning.Transaction.Create
import LedgerSigning.Cli.Commands
import LedgerSigning.Main
import LedgerSigning.Proofs.Address
import LedgerSigning.Proofs.Cli.SignedFile
import LedgerSigning.Proofs.DataUpdate.Grammar
import LedgerSigning.Proofs.Precision
import LedgerSigning.Proofs.Transaction.Batch
import LedgerSigning.Proofs.Transaction.Creation
import LedgerSigning.Proofs.Transaction.Untyped
import LedgerSigning.Proofs.Framing
import LedgerSigning.Proofs.Cli.Verification
import LedgerSigning.Proofs.Cli.Assignments.Update
import LedgerSigning.Proofs.KeyPair
import LedgerSigning.Proofs.Transaction.Salt
import LedgerSigning.Proofs.DataUpdate.Transfer
import LedgerSigning.Proofs.Transaction.Tokens
import LedgerSigning.Proofs.Number.Nearest
import LedgerSigning.Proofs.Transaction.Units
