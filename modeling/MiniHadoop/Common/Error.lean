/-
`common/error.h`: the status a fallible call returns.
-/
import MiniHadoop.Base.Text

namespace MiniHadoop

open Text

inductive Status.Code where
  | kOk
  | kIOError
  | kCorrupt
  | kNotFound
  | kInvalidArg
  deriving DecidableEq, Repr

/-- `class Status`. -/
structure Status where
  code : Status.Code := .kOk
  msg : Bytes := []
  deriving DecidableEq, Repr

namespace Status

def OK : Status := {}

/-- `Status::IOError(msg)`. -/
def ioError (msg : Bytes) : Status := { code := .kIOError, msg }

/-- `Status::Corrupt(msg)`. -/
def corrupt (msg : Bytes) : Status := { code := .kCorrupt, msg }

/-- `Status::InvalidArg(msg)`. -/
def invalidArg (msg : Bytes) : Status := { code := .kInvalidArg, msg }

end Status

end MiniHadoop
