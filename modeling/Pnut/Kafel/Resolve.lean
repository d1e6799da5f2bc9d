import Pnut.Kafel.Parser

/-!
# Resolution

From a merged syntax tree to a flat list of numeric rules: names of syscalls become numbers,
defines their values, argument names their indices, and `USE` references the policies they name.
A hash map is a list of bindings, the newest first; a hash set of names in progress is a list that
is passed down, as each name is removed again before its call returns.
-/

namespace Pnut.Kafel

/-- The names `resolve_syscall` knows, with their numbers on x86-64. -/
def syscallTable : List (String × UInt32) :=
  [("read", 0), ("write", 1), ("open", 2), ("close", 3), ("stat", 4), ("fstat", 5), ("lstat", 6),
   ("poll", 7), ("lseek", 8), ("mmap", 9), ("mprotect", 10), ("pkey_mprotect", 329),
   ("munmap", 11), ("brk", 12), ("rt_sigaction", 13), ("rt_sigprocmask", 14),
   ("rt_sigreturn", 15), ("ioctl", 16), ("pread64", 17), ("pwrite64", 18), ("readv", 19),
   ("writev", 20), ("access", 21), ("pipe", 22), ("select", 23), ("sched_yield", 24),
   ("mremap", 25), ("msync", 26), ("mincore", 27), ("madvise", 28), ("shmget", 29),
   ("shmat", 30), ("shmctl", 31), ("dup", 32), ("dup2", 33), ("pause", 34), ("nanosleep", 35),
   ("getitimer", 36), ("alarm", 37), ("setitimer", 38), ("getpid", 39), ("sendfile", 40),
   ("socket", 41), ("connect", 42), ("accept", 43), ("sendto", 44), ("recvfrom", 45),
   ("sendmsg", 46), ("recvmsg", 47), ("shutdown", 48), ("bind", 49), ("listen", 50),
   ("getsockname", 51), ("getpeername", 52), ("socketpair", 53), ("setsockopt", 54),
   ("getsockopt", 55), ("clone", 56), ("fork", 57), ("vfork", 58), ("execve", 59), ("exit", 60),
   ("wait4", 61), ("kill", 62), ("uname", 63), ("semget", 64), ("semop", 65), ("semctl", 66),
   ("shmdt", 67), ("msgget", 68), ("msgsnd", 69), ("msgrcv", 70), ("msgctl", 71), ("fcntl", 72),
   ("flock", 73), ("fsync", 74), ("fdatasync", 75), ("truncate", 76), ("ftruncate", 77),
   ("getdents", 78), ("getcwd", 79), ("chdir", 80), ("fchdir", 81), ("rename", 82),
   ("mkdir", 83), ("rmdir", 84), ("creat", 85), ("link", 86), ("unlink", 87), ("symlink", 88),
   ("readlink", 89), ("chmod", 90), ("fchmod", 91), ("chown", 92), ("fchown", 93),
   ("lchown", 94), ("umask", 95), ("gettimeofday", 96), ("getrlimit", 97), ("getrusage", 98),
   ("sysinfo", 99), ("times", 100), ("ptrace", 101), ("getuid", 102), ("syslog", 103),
   ("getgid", 104), ("setuid", 105), ("setgid", 106), ("geteuid", 107), ("getegid", 108),
   ("setpgid", 109), ("getppid", 110), ("getpgrp", 111), ("setsid", 112), ("setreuid", 113),
   ("setregid", 114), ("getgroups", 115), ("setgroups", 116), ("setresuid", 117),
   ("getresuid", 118), ("setresgid", 119), ("getresgid", 120), ("getpgid", 121),
   ("setfsuid", 122), ("setfsgid", 123), ("getsid", 124), ("capget", 125), ("capset", 126),
   ("rt_sigpending", 127), ("rt_sigtimedwait", 128), ("rt_sigqueueinfo", 129),
   ("rt_sigsuspend", 130), ("sigaltstack", 131), ("utime", 132), ("mknod", 133),
   ("personality", 135), ("ustat", 136), ("statfs", 137), ("fstatfs", 138), ("sysfs", 139),
   ("getpriority", 140), ("setpriority", 141), ("sched_setparam", 142), ("sched_getparam", 143),
   ("sched_setscheduler", 144), ("sched_getscheduler", 145), ("sched_get_priority_max", 146),
   ("sched_get_priority_min", 147), ("sched_rr_get_interval", 148), ("mlock", 149),
   ("munlock", 150), ("mlockall", 151), ("munlockall", 152), ("vhangup", 153),
   ("pivot_root", 155), ("prctl", 157), ("arch_prctl", 158), ("adjtimex", 159),
   ("setrlimit", 160), ("chroot", 161), ("sync", 162), ("acct", 163), ("settimeofday", 164),
   ("mount", 165), ("umount2", 166), ("swapon", 167), ("swapoff", 168), ("reboot", 169),
   ("sethostname", 170), ("setdomainname", 171), ("ioperm", 173), ("init_module", 175),
   ("delete_module", 176), ("quotactl", 179), ("gettid", 186), ("readahead", 187),
   ("setxattr", 188), ("lsetxattr", 189), ("fsetxattr", 190), ("getxattr", 191),
   ("lgetxattr", 192), ("fgetxattr", 193), ("listxattr", 194), ("llistxattr", 195),
   ("flistxattr", 196), ("removexattr", 197), ("lremovexattr", 198), ("fremovexattr", 199),
   ("tkill", 200), ("time", 201), ("futex", 202), ("sched_setaffinity", 203),
   ("sched_getaffinity", 204), ("io_setup", 206), ("io_destroy", 207), ("io_getevents", 208),
   ("io_submit", 209), ("io_cancel", 210), ("epoll_create", 213), ("getdents64", 217),
   ("set_tid_address", 218), ("restart_syscall", 219), ("semtimedop", 220), ("fadvise64", 221),
   ("timer_create", 222), ("timer_settime", 223), ("timer_gettime", 224),
   ("timer_getoverrun", 225), ("timer_delete", 226), ("clock_settime", 227),
   ("clock_gettime", 228), ("clock_getres", 229), ("clock_nanosleep", 230), ("exit_group", 231),
   ("epoll_wait", 232), ("epoll_ctl", 233), ("tgkill", 234), ("utimes", 235), ("mbind", 237),
   ("set_mempolicy", 238), ("get_mempolicy", 239), ("mq_open", 240), ("mq_unlink", 241),
   ("mq_timedsend", 242), ("mq_timedreceive", 243), ("mq_notify", 244), ("mq_getsetattr", 245),
   ("kexec_load", 246), ("waitid", 247), ("add_key", 248), ("request_key", 249), ("keyctl", 250),
   ("ioprio_set", 251), ("ioprio_get", 252), ("inotify_init", 253), ("inotify_add_watch", 254),
   ("inotify_rm_watch", 255), ("migrate_pages", 256), ("openat", 257), ("mkdirat", 258),
   ("mknodat", 259), ("fchownat", 260), ("futimesat", 261), ("newfstatat", 262),
   ("unlinkat", 263), ("renameat", 264), ("linkat", 265), ("symlinkat", 266),
   ("readlinkat", 267), ("fchmodat", 268), ("faccessat", 269), ("pselect6", 270), ("ppoll", 271),
   ("unshare", 272), ("set_robust_list", 273), ("get_robust_list", 274), ("splice", 275),
   ("tee", 276), ("sync_file_range", 277), ("vmsplice", 278), ("move_pages", 279),
   ("utimensat", 280), ("epoll_pwait", 281), ("signalfd", 282), ("timerfd_create", 283),
   ("eventfd", 284), ("fallocate", 285), ("timerfd_settime", 286), ("timerfd_gettime", 287),
   ("accept4", 288), ("signalfd4", 289), ("eventfd2", 290), ("epoll_create1", 291),
   ("dup3", 292), ("pipe2", 293), ("inotify_init1", 294), ("preadv", 295), ("pwritev", 296),
   ("rt_tgsigqueueinfo", 297), ("perf_event_open", 298), ("recvmmsg", 299),
   ("fanotify_init", 300), ("fanotify_mark", 301), ("prlimit64", 302),
   ("name_to_handle_at", 303), ("open_by_handle_at", 304), ("clock_adjtime", 305),
   ("syncfs", 306), ("sendmmsg", 307), ("setns", 308), ("getcpu", 309),
   ("process_vm_readv", 310), ("process_vm_writev", 311), ("kcmp", 312), ("finit_module", 313),
   ("sched_setattr", 314), ("sched_getattr", 315), ("renameat2", 316), ("seccomp", 317),
   ("getrandom", 318), ("memfd_create", 319), ("bpf", 321), ("execveat", 322),
   ("membarrier", 324), ("mlock2", 325), ("copy_file_range", 326), ("preadv2", 327),
   ("pwritev2", 328), ("statx", 332), ("rseq", 334), ("pidfd_send_signal", 424),
   ("io_uring_setup", 425), ("io_uring_enter", 426), ("io_uring_register", 427),
   ("open_tree", 428), ("move_mount", 429), ("fsopen", 430), ("fsconfig", 431), ("fsmount", 432),
   ("fspick", 433), ("pidfd_open", 434), ("clone3", 435), ("close_range", 436),
   ("pidfd_getfd", 438), ("faccessat2", 439), ("process_madvise", 440), ("epoll_pwait2", 441),
   ("mount_setattr", 442), ("landlock_create_ruleset", 444), ("landlock_add_rule", 445),
   ("landlock_restrict_self", 446), ("memfd_secret", 447), ("process_mrelease", 448)]

def resolveSyscall (name : String) : Result UInt32 :=
  match syscallTable.lookup name with
  | some nr => pure nr
  | none => errWith (.unknownSyscall name none)

/-! ## Simplification -/

def simplifyCompare (lhs : Expr) (op : CmpOp) (rhs : Expr) : Expr :=
  match lhs, rhs with
  | .constant a, .constant b => .boolConst (evaluateCmp op a b)
  | lhs, rhs => .compare lhs op rhs

def simplifyAnd (a b : Expr) : Expr :=
  match a, b with
  | .boolConst true, b => b
  | a, .boolConst true => a
  | .boolConst false, _ => .boolConst false
  | _, .boolConst false => .boolConst false
  | a, b => .and a b

def simplifyOr (a b : Expr) : Expr :=
  match a, b with
  | .boolConst false, b => b
  | a, .boolConst false => a
  | .boolConst true, _ => .boolConst true
  | _, .boolConst true => .boolConst true
  | a, b => .or a b

def simplifyNot : Expr → Expr
  | .boolConst b => .boolConst !b
  | .not inner => inner
  | e => .not e

/-! ## Defines -/

/-- Resolved names and their values. -/
abbrev Table := List (String × UInt64)

section Defines

variable (rawDefines : List (String × Ast.Expr))

mutual

/-- `resolve_define_expr`; `define` resolves a name that is not in the table yet. -/
def resolveDefineExpr (define : String → Span → Table → Result (UInt64 × Table)) :
    Ast.Expr → Table → Result (UInt64 × Table)
  | .number n, resolved => pure (n, resolved)
  | .ident name span, resolved =>
    match resolved.lookup name with
    | some val => pure (val, resolved)
    | none => define name span resolved
  | .bitOr parts, resolved => resolveDefineParts define 0 parts resolved

def resolveDefineParts (define : String → Span → Table → Result (UInt64 × Table)) :
    UInt64 → List Ast.Expr → Table → Result (UInt64 × Table)
  | result, [], resolved => pure (result, resolved)
  | result, part :: parts, resolved => do
    let (val, resolved) ← resolveDefineExpr define part resolved
    resolveDefineParts define (result ||| val) parts resolved

end

/-- The resolution of a name on demand. One name more is in progress at each level, so as many
levels as there are defines are enough. -/
def resolveDefine : ℕ → List String → String → Span → Table → Result (UInt64 × Table)
  | left, inProgress, name, span, resolved =>
    if name ∈ inProgress then errWith (.undefinedIdentifier name (some span))
    else
      match rawDefines.lookup name, left with
      | none, _ => errWith (.undefinedIdentifier name (some span))
      | some _, 0 => panicWith "stack overflow"
      | some defExpr, left + 1 => do
        let (val, resolved) ←
          resolveDefineExpr (resolveDefine left (name :: inProgress)) defExpr resolved
        pure (val, (name, val) :: resolved)

/-- The loop of `Resolver::new` over the defines in order. -/
def resolveDefines (left : ℕ) : List (String × Ast.Expr) → Table → Result Table
  | [], defines => pure defines
  | (name, expr) :: rest, defines =>
    match defines.lookup name with
    | some _ => resolveDefines left rest defines
    | none => do
      let (value, defines) ← resolveDefineExpr (resolveDefine rawDefines left []) expr defines
      resolveDefines left rest ((name, value) :: defines)

end Defines

/-- The table of defines and the index of the policies, the last of a name first. -/
structure Resolver where
  defines : Table
  policies : List (String × Ast.Policy)

def Resolver.new (file : Ast.PolicyFile) : Result Resolver := do
  let defines ← resolveDefines file.defines.reverse file.defines.length file.defines []
  pure ⟨defines, (file.policies.map fun p => (p.name, p)).reverse⟩

namespace Resolver

variable (r : Resolver)

/-! ## Expressions -/

/-- The value of a list of constants. -/
def constants : List Expr → Option UInt64
  | [] => some 0
  | .constant n :: es => (constants es).map (n ||| ·)
  | _ :: _ => none

mutual

def resolveExpr (argMap : List (String × UInt8)) : Ast.Expr → Result Expr
  | .number n => pure (.constant n)
  | .ident name span =>
    match r.defines.lookup name with
    | some val => pure (.constant val)
    | none =>
      match argMap.lookup name with
      | some idx => pure (.arg idx)
      | none => errWith (.undefinedIdentifier name (some span))
  | .bitOr parts => do
    let resolved ← resolveExprs argMap parts
    match constants resolved with
    | some val => pure (.constant val)
    | none => pure (.bitOr resolved)

def resolveExprs (argMap : List (String × UInt8)) : List Ast.Expr → Result (List Expr)
  | [] => pure []
  | part :: parts => do
    let e ← resolveExpr argMap part
    let es ← resolveExprs argMap parts
    pure (e :: es)

end

def resolveBoolExpr (argMap : List (String × UInt8)) (syscallName : String) :
    Ast.BoolExpr → Result Expr
  | .compare lhs op rhs => do
    let resolvedRhs ← r.resolveExpr argMap rhs
    match lhs with
    | .arg name span =>
      match argMap.lookup name with
      | some idx => pure (simplifyCompare (.arg idx) op resolvedRhs)
      | none =>
        match r.defines.lookup name with
        | some val => pure (simplifyCompare (.constant val) op resolvedRhs)
        | none => errWith (.undeclaredArgument name syscallName (some span))
    | .masked name span mask =>
      match argMap.lookup name with
      | none => errWith (.undeclaredArgument name syscallName (some span))
      | some idx => do
        let resolvedMask ← r.resolveExpr argMap mask
        pure (.maskedCompare idx resolvedMask op resolvedRhs)
  | .and a b => do
    let ra ← resolveBoolExpr argMap syscallName a
    let rb ← resolveBoolExpr argMap syscallName b
    pure (simplifyAnd ra rb)
  | .or a b => do
    let ra ← resolveBoolExpr argMap syscallName a
    let rb ← resolveBoolExpr argMap syscallName b
    pure (simplifyOr ra rb)
  | .not inner => do
    let ri ← resolveBoolExpr argMap syscallName inner
    pure (simplifyNot ri)
  | .literal val => pure (.boolConst val)

/-! ## Actions -/

mutual

def resolveActionValue : Ast.Expr → Result UInt32
  | .number n => pure n.toUInt32
  | .ident name span =>
    match r.defines.lookup name with
    | some val => pure val.toUInt32
    | none => errWith (.undefinedIdentifier name (some span))
  | .bitOr parts => do
    let result ← resolveActionParts 0 parts
    pure result.toUInt32

/-- Each part is cut to 32 bits before it is joined. -/
def resolveActionParts (result : UInt64) : List Ast.Expr → Result UInt64
  | [] => pure result
  | part :: parts => do
    let val ← resolveActionValue part
    resolveActionParts (result ||| val.toUInt64) parts

end

def resolveAction : Ast.Action → Result Action
  | .allow => pure .allow
  | .kill => pure .kill
  | .killProcess => pure .killProcess
  | .log => pure .log
  | .userNotif => pure .userNotif
  | .errno value => do pure (.errno (← r.resolveActionValue value))
  | .trap value => do pure (.trap (← r.resolveActionValue value))
  | .trace value => do pure (.trace (← r.resolveActionValue value))

/-! ## Policies -/

/-- Argument names and their indices; of two equal names the later counts. -/
def argMap (args : List String) : List (String × UInt8) :=
  (args.zipIdx.map fun (name, i) => (name, UInt8.ofNat i)).reverse

/-- The number of a rule's syscall; an unknown name is reported where it stands. -/
def resolveName (rule : Ast.SyscallRule) : Result UInt32 :=
  match resolveSyscall rule.name with
  | .error (.error (.unknownSyscall name _)) =>
    errWith (.unknownSyscall name (some rule.nameSpan))
  | result => result

def resolveRule (action : Action) (rule : Ast.SyscallRule) : Result PolicyEntry := do
  let syscallNumber ← resolveName rule
  match rule.filter with
  | some filter => do
    let filter ← r.resolveBoolExpr (argMap rule.args) rule.name filter
    pure ⟨syscallNumber, action, some filter⟩
  | none => pure ⟨syscallNumber, action, none⟩

def resolveActionBlock (block : Ast.ActionBlock) (action : Action) : Result (List PolicyEntry) :=
  block.rules.mapM (r.resolveRule action)

/-- The loop of `flatten_policy` over the entries of a policy. -/
def flattenEntries (flatten : String → Span → Result (List (Action × List PolicyEntry))) :
    List Ast.PolicyEntry → Result (List (Action × List PolicyEntry))
  | [] => pure []
  | .actionBlock block :: entries => do
    let action ← r.resolveAction block.action
    let rules ← r.resolveActionBlock block action
    let rest ← flattenEntries flatten entries
    pure ((action, rules) :: rest)
  | .useRef name span :: entries => do
    let used ← flatten name span
    let rest ← flattenEntries flatten entries
    pure (used ++ rest)

/-- `flatten_policy`. One policy more is visited at each level, so as many levels as there are
policies are enough. -/
def flattenPolicy : ℕ → List String → String → Span → Result (List (Action × List PolicyEntry))
  | left, visiting, name, span =>
    if name ∈ visiting then errWith (.circularUse name (some span))
    else
      match r.policies.lookup name, left with
      | none, _ => errWith (.undefinedPolicy name (some span))
      | some _, 0 => panicWith "stack overflow"
      | some policy, left + 1 =>
        r.flattenEntries (flattenPolicy left (name :: visiting)) policy.entries

/-- The rules of the policies a `USE` statement names. -/
def usedEntries (left : ℕ) : List (String × Span) → Result (List PolicyEntry)
  | [] => pure []
  | (name, span) :: policies => do
    let blocks ← r.flattenPolicy left [] name span
    let rest ← usedEntries left policies
    pure (blocks.flatMap (·.2) ++ rest)

end Resolver

def resolve (file : Ast.PolicyFile) : Result Policy := do
  let resolver ← Resolver.new file
  match file.useStmt with
  | none => errWith (.parse "no top-level USE statement found" none)
  | some useStmt => do
    let defaultAction ← resolver.resolveAction useStmt.defaultAction
    let entries ← resolver.usedEntries file.policies.length useStmt.policies
    pure ⟨entries, defaultAction⟩

end Pnut.Kafel
