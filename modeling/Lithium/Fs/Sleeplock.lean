/-
# Sleeplocks

`sleeplock.c` with its inner spinlock taken as atomic.  The caller is given by `cur`, the pid of
`current_process`, or `none` during boot, when `current_process` is `NULL`.
-/
import Lithium.Param

namespace Lithium

/-- `struct sleeplock`, without the debugging name and the inner spinlock. -/
structure Sleeplock where
  locked : Bool
  pid : Pid
  deriving DecidableEq

/-- `sleeplock_init`. -/
def sleeplockInit : Sleeplock := ⟨false, 0⟩

/-- One pass of `sleeplock_acquire`: `none` when the lock is taken, and the caller sleeps. -/
def sleeplockAcquire (lk : Sleeplock) (cur : Option Pid) : Option Sleeplock :=
  if lk.locked then none else some ⟨true, cur.getD lk.pid⟩

/-- `sleeplock_release`, for anybody who calls it. -/
def sleeplockRelease (_lk : Sleeplock) : Sleeplock := ⟨false, 0⟩

/-- `sleeplock_held`: never true while `current_process` is `NULL`. -/
def sleeplockHeld (lk : Sleeplock) (cur : Option Pid) : Bool :=
  lk.locked && cur == some lk.pid

end Lithium
