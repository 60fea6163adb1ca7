import BypassIo.Db.Batch
import BypassIo.Library.Disk

/-!
# Errors

The error types of `wal.rs`, `scan.rs` and `table.rs`.
-/

namespace BypassIo.Db
open FileSystem

inductive WalError where
  | io (err : String)
  | payloadTooLarge (len : Nat)
  | sequenceOverflow
  | checksumMismatch (seqNo : UInt64)
  deriving DecidableEq, Repr

inductive ScanError where
  | unknownColumn (column : String)
  | columnOrderMismatch
  | columnTypeMismatch
  | rowCountOverflow
  | invalidColumnBytes (len width : Nat)
  deriving DecidableEq, Repr

inductive TableError where
  | io (err : String)
  | batch (err : BatchError)
  | wal (err : WalError)
  | scan (err : ScanError)
  | missingColumn (column : String)
  | payloadTooLarge (len : Nat)
  | payloadDecode (err : String)
  | segment (err : String)
  | manifest (err : String)
  deriving DecidableEq, Repr

/-- `|err| WalError::Io(err.to_string())` -/
def WalError.ofIo (err : IoError) : WalError := .io err.text

namespace TableError

/-- `|err| TableError::Io(err.to_string())` -/
def ofIo (err : IoError) : TableError := .io err.text

/-- The error reports a failed system call. -/
def IsIo : TableError → Prop
  | .io _ | .wal (.io _) => True
  | _ => False

instance : DecidablePred IsIo := fun e => by
  unfold IsIo
  split <;> infer_instance

end TableError

end BypassIo.Db
