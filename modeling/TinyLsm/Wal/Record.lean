import TinyLsm.Basic

/-!
# Log records

The records a transaction passes to the write-ahead log, one for each of its operations.
The length a record reports is that of its encoding, as far as sixteen bits hold it.
-/

namespace TinyLsm

/-- What a record logs.  A byte of a log that is none of the five operations is kept as it
is, as the cast from the byte to the enumeration keeps it. -/
inductive OperationType where
  | opCreate
  | opCommit
  | opRollback
  | opPut
  | opDelete
  | unnamed (byte : Byte) (h : 5 ≤ byte.val)
deriving DecidableEq, Repr

structure Record where
  trancId : TrancId
  operationType : OperationType
  key : Bytes := []
  value : Bytes := []
  recordLen : UInt16
deriving DecidableEq, Repr

namespace Record

/-- The size of the length, the transaction id and the type of an encoded record. -/
def headerSize : ℕ := 2 + 8 + 1

def createRecord (trancId : TrancId) : Record where
  trancId
  operationType := .opCreate
  recordLen := UInt16.ofNat headerSize

def commitRecord (trancId : TrancId) : Record where
  trancId
  operationType := .opCommit
  recordLen := UInt16.ofNat headerSize

def rollbackRecord (trancId : TrancId) : Record where
  trancId
  operationType := .opRollback
  recordLen := UInt16.ofNat headerSize

def putRecord (trancId : TrancId) (key value : Bytes) : Record where
  trancId
  operationType := .opPut
  key
  value
  recordLen := UInt16.ofNat (headerSize + 2 + key.length + 2 + value.length)

def deleteRecord (trancId : TrancId) (key : Bytes) : Record where
  trancId
  operationType := .opDelete
  key
  recordLen := UInt16.ofNat (headerSize + 2 + key.length)

end Record

end TinyLsm
