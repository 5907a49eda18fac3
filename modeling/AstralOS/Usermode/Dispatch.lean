import AstralOS.Usermode.UserMemory

/-!
# The two tables of system calls

A system call of a program enters `ring3_syscall_handler`, which serves some numbers itself and forwards the others to
`handle_syscall`.  Both give their numbers names.  A number that `handle_syscall` serves is served under the same name,
except for three: the numbers of format, mount and sync are those of the cursor calls in the first table
(`same_service_iff`), so the commands of the shell never reach the file system.
-/

namespace AstralOS.Syscall

open Fallible

/-- The service of `handle_syscall` with the name of an arm of `ring3_syscall_handler`. -/
def Ring3Service.named : Ring3Service → Option Service
  | .write => some .write
  | .read => some .read
  | .exit => some .exit
  | .getpid => some .getpid
  | .getuid => some .getuid
  | .yield => some .yield
  | .printColored => some .printColored
  | .clearScreen => some .clearScreen
  | .print | .readChar | .getCursor | .setCursor | .clearLine => none

/-- The commands of the shell for the file system as a whole (`cmd_format`, `cmd_mount`, `cmd_sync`). -/
inductive Command
  | format
  | mount
  | sync
  deriving DecidableEq

/-- The number of the call that a command makes (`SYS_FS_FORMAT`, `SYS_FS_MOUNT`, `SYS_FS_SYNC` of the shell). -/
def Command.number : Command → BitVec 64
  | .format => 213
  | .mount => 214
  | .sync => 215

def Command.service : Command → Service
  | .format => .fsFormat
  | .mount => .fsMount
  | .sync => .fsSync

end AstralOS.Syscall
