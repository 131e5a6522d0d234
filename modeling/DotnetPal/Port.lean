import DotnetPal.Foundations.Programs

/-!
# The port boundary

The refusals a provider may answer with, the way a modelled call can end without an answer, and the
codes the file, watch and mapping groups of the boundary share with their providers.
-/

namespace DotnetPal

/-- The errors of the boundary, in the order of their status codes. -/
inductive Error
  | unsupported
  | invalidArgument
  | os
  | outOfMemory
  | timeout
  | busy
  | bufferTooSmall
  | notFound
  | alreadyExists
  | accessDenied
  | isDirectory
  | notDirectory
  | notEmpty
  | noSpace
  | wouldBlock
  | brokenPipe
  | connectionRefused
  | connectionReset
  | connectionAborted
  | notConnected
  | alreadyConnected
  | addressInUse
  | addressNotAvailable
  | networkUnreachable
  | hostUnreachable
  | inProgress
  | tooManyHandles
  | nameTooLong
  | readOnly
  | crossDevice
  | messageTooLarge
  deriving DecidableEq, Repr

/-- Why a modelled computation has no result: the code returns an error, it panics (an index out of
range, an unsigned subtraction below zero, a raw access outside its memory), or one of its loops
does not end within the bound the model gives it. The last two are proved unreachable. -/
inductive Fault
  | error (error : Error)
  | panic
  | diverge
  deriving DecidableEq, Repr

instance : Coe Error Fault := ⟨Fault.error⟩

/-- An error the boundary knows, as opposed to a panic or a loop that does not end. -/
def Fault.Refusal (fault : Fault) : Prop := ∃ error : Error, fault = .error error

theorem Fault.refusal_error (error : Error) : Fault.Refusal (.error error) := ⟨error, rfl⟩

/-- What a fallible computation that changes nothing answers. -/
abbrev Result := Except Fault

/-- An absent value is the given error. -/
def Result.required {α : Type} (value : Option α) (error : Error) : Result α :=
  match value with
  | some found => .ok found
  | none => .error error

variable {error : Error} {α : Type}

theorem Result.required_eq_ok_iff {v : Option α} {x : α} :
    Result.required v error = .ok x ↔ v = some x := by
  cases v <;> simp [Result.required]

/-- The computation gives a value that satisfies `post`, or refuses. -/
abbrev Result.Yields {α : Type} (result : Result α) (post : α → Prop) : Prop :=
  Programs.Yields Fault.Refusal result post

theorem Programs.Yields.refused {post : α → Prop} :
    Programs.Yields Fault.Refusal (.error (.error error)) post :=
  .error (Fault.refusal_error error)

theorem Programs.Atomic.refused {σ : Type} {program : EStateM Fault σ α} {s : σ} {post : α → σ → Prop}
    (h : program s = .error error s) : Programs.Atomic Fault.Refusal program s post :=
  .inl ⟨_, Fault.refusal_error error, h⟩

theorem Result.required_yields (v : Option α) (error : Error) :
    (Result.required v error).Yields (v = some ·) := by
  cases v with
  | some x => exact .ok rfl
  | none => exact .refused

/-! ## Error numbers -/

/-- The error numbers of the managed side. -/
inductive Errno
  | enotsup | einval | enomem | etimedout | ebusy | erange | enoent | eexist | eacces | eisdir | enotdir
  | enotempty | enospc | eagain | epipe | econnrefused | econnreset | econnaborted | enotconn | eisconn
  | eaddrinuse | eaddrnotavail | enetunreach | ehostunreach | einprogress | emfile | enametoolong | erofs
  | exdev | emsgsize | eio | eperm | esrch | echild
  deriving DecidableEq, Repr

/-- The error number the managed side expects for an error of the boundary. -/
def snErrno : Error → Errno
  | .unsupported => .enotsup
  | .invalidArgument => .einval
  | .os => .eio
  | .outOfMemory => .enomem
  | .timeout => .etimedout
  | .busy => .ebusy
  | .bufferTooSmall => .erange
  | .notFound => .enoent
  | .alreadyExists => .eexist
  | .accessDenied => .eacces
  | .isDirectory => .eisdir
  | .notDirectory => .enotdir
  | .notEmpty => .enotempty
  | .noSpace => .enospc
  | .wouldBlock => .eagain
  | .brokenPipe => .epipe
  | .connectionRefused => .econnrefused
  | .connectionReset => .econnreset
  | .connectionAborted => .econnaborted
  | .notConnected => .enotconn
  | .alreadyConnected => .eisconn
  | .addressInUse => .eaddrinuse
  | .addressNotAvailable => .eaddrnotavail
  | .networkUnreachable => .enetunreach
  | .hostUnreachable => .ehostunreach
  | .inProgress => .einprogress
  | .tooManyHandles => .emfile
  | .nameTooLong => .enametoolong
  | .readOnly => .erofs
  | .crossDevice => .exdev
  | .messageTooLarge => .emsgsize

/-! ## Codes of the groups -/

namespace Files

def read : UInt32 := 1
def write : UInt32 := 2
def create : UInt32 := 4
def exclusive : UInt32 := 8
def truncate : UInt32 := 16

def maxEntryName : Nat := 255

/-- What a node is, as a status tells it. -/
inductive NodeKind
  | file
  | directory
  | symlink
  deriving DecidableEq, Repr

/-- The code of a kind at the boundary. -/
def NodeKind.code : NodeKind → UInt8
  | file => 1
  | directory => 2
  | symlink => 3

/-- What a lock call asks for. -/
inductive LockMode
  | shared
  | exclusive
  | unlock
  deriving DecidableEq, Repr

end Files

namespace Watches

def access : UInt32 := 1
def modify : UInt32 := 2
def attributes : UInt32 := 4
def movedFrom : UInt32 := 8
def movedTo : UInt32 := 16
def create : UInt32 := 32
def delete : UInt32 := 64
def overflow : UInt32 := 128
def removed : UInt32 := 256
/-- Marks an event about a directory. -/
def directory : UInt32 := 512
def onlyDirectory : UInt32 := 1024
def noFollow : UInt32 := 2048

end Watches

namespace Runtime

def read : UInt32 := 1
def write : UInt32 := 2
def execute : UInt32 := 4

/-- The longest text the boundary carries. -/
def maxName : Nat := 4095

end Runtime

end DotnetPal
