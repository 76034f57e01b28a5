import Mapache.Common
import Mapache.Lib.Table

/-!
# Lock records and lock files

The `Lock` record of `repository/lock.rs` and the tests a client applies to the locks it reads. What
`is_expired` and `process_alive` ask of the machine they run on (the clock, the host name, the
process table) is a `Machine`. A lock file holds an encoded lock, or bytes that do not decode;
`get_locks` ignores the latter.
-/

set_option autoImplicit false

namespace Mapache

/-- A backend directory of files named by an ID. -/
abbrev Dir (α : Type) := Lib.Table ID α

/-- A repository lock. Times are in nanoseconds. -/
structure Lock where
  id : ID
  timestamp : Int
  exclusive : Bool
  hostname : String
  username : String
  pid : Nat
  context : List String
  creationTime : Option Int
  deriving DecidableEq

/-- What the lock tests read of the machine they run on. `processExists` is the answer of
`kill(pid, 0)`, where a missing permission counts as existence. -/
structure Machine where
  now : Int
  hostname : Option String
  username : Option String
  args : List String
  processExists : Nat → Bool

/-- Lock timeout: ten minutes without a refresh. -/
def lockExpireTimeout : Int := 10 * 60 * 1000000000

/-- `Lock::new`, with the random ID it draws and the ID of the process that runs it. -/
def Lock.new (m : Machine) (id : ID) (pid : Nat) (exclusive : Bool) : Lock where
  id := id
  timestamp := m.now
  exclusive := exclusive
  hostname := m.hostname.getD ""
  username := m.username.getD ""
  pid := pid
  context := m.args
  creationTime := some m.now

/-- `Lock::refresh`: only the timestamp changes. -/
def Lock.refresh (l : Lock) (now : Int) : Lock := { l with timestamp := now }

@[simp] theorem Lock.refresh_id (l : Lock) (now : Int) : (l.refresh now).id = l.id := rfl

@[simp] theorem Lock.refresh_exclusive (l : Lock) (now : Int) :
    (l.refresh now).exclusive = l.exclusive := rfl

/-- `Lock::is_expired`, by the timestamp of the last refresh. -/
def Lock.isExpired (m : Machine) (l : Lock) : Bool :=
  decide (m.now - l.timestamp > lockExpireTimeout)

/-- `Lock::process_alive`. A process of another host, or of an unknown one, counts as alive. -/
def Lock.processAlive (m : Machine) (l : Lock) : Bool :=
  if l.hostname = "" then true
  else
    match m.hostname with
    | none => true
    | some current => if l.hostname ≠ current then true else m.processExists l.pid

/-- `Lock::is_stale`: expired, or provably left by a dead process. -/
def Lock.isStale (m : Machine) (l : Lock) : Bool := l.isExpired m || !l.processAlive m

/-- The content of a file of the locks directory. -/
inductive LockFile where
  | encoded (l : Lock)
  | unreadable
  deriving DecidableEq

/-- The decoding and parsing that `get_locks` applies to a file it could read. -/
def LockFile.parse : LockFile → Option Lock
  | .encoded l => some l
  | .unreadable => none

end Mapache
