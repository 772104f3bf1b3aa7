import Lockfreec.Lib.Serializability

/-!
# What transactions do to versions of rows

Every write of a row creates a new version of it, and the versions of a row
are numbered in the order in which they are created.
-/

namespace Lockfreec.Lib.VersionGraph

open Lib.Serializability

variable {Id Row : Type}

/-- What a transaction does to the rows. -/
inductive Event (Id Row : Type) where
  /-- The transaction has a copy of this version. -/
  | read (id : Id) (row : Row) (version : Nat)
  | locked (id : Id) (row : Row)
  | unlocked (id : Id) (row : Row)
  /-- All locks that the transaction needs are taken. -/
  | lockedAll (id : Id)
  /-- The timestamp of the transaction is known. -/
  | stamped (id : Id) (stamp : Nat)
  /-- The version that the transaction has read was found valid. -/
  | checked (id : Id) (row : Row) (version : Nat)
  /-- The contents of the row were replaced by this version. -/
  | wrote (id : Id) (row : Row) (version : Nat)
  | committed (id : Id)
  | aborted (id : Id)
deriving DecidableEq

end Lockfreec.Lib.VersionGraph
