/-!
# Wait statuses

How a process ended, as the 32 bits that waiting for it answers: the low seven bits hold the signal that killed
it, the next one tells of a core dump, the next eight hold the exit code.
-/

namespace EclipseProject

structure WaitStatus where
  bits : UInt32
  deriving DecidableEq, Repr

namespace WaitStatus

def ofInt (n : Int) : WaitStatus := ⟨.ofNat (n % 0x100000000).toNat⟩

def ofExitCode (code : UInt8) : WaitStatus := ⟨code.toUInt32 <<< 8⟩

def toInt (w : WaitStatus) : Int := (w.bits.toNat : Int).bmod 0x100000000

def success (w : WaitStatus) : Bool := w.bits == 0

def signalNames : List String :=
  ["SIGHUP", "SIGINT", "SIGQUIT", "SIGILL", "SIGTRAP", "SIGABRT", "SIGBUS", "SIGFPE", "SIGKILL", "SIGUSR1",
    "SIGSEGV", "SIGUSR2", "SIGPIPE", "SIGALRM", "SIGTERM", "SIGSTKFLT", "SIGCHLD", "SIGCONT", "SIGSTOP", "SIGTSTP",
    "SIGTTIN", "SIGTTOU", "SIGURG", "SIGXCPU", "SIGXFSZ", "SIGVTALRM", "SIGPROF", "SIGWINCH", "SIGIO", "SIGPWR",
    "SIGSYS"]

def signalText (n : Nat) : String :=
  match if n = 0 then none else signalNames[n - 1]? with
  | some name => toString n ++ " (" ++ name ++ ")"
  | none => toString n

def hexText (n : Nat) : String := .ofList (Nat.toDigits 16 n)

def message (w : WaitStatus) : String :=
  let n := w.bits.toNat
  let signal := n % 0x80
  let code := n / 0x100 % 0x100
  if signal = 0 then "exit status: " ++ toString code
  else if signal < 0x7F then
    "signal: " ++ signalText signal ++ (if n / 0x80 % 2 = 1 then " (core dumped)" else "")
  else if n % 0x100 = 0x7F then "stopped (not terminated) by signal: " ++ signalText code
  else if n = 0xFFFF then "continued (WIFCONTINUED)"
  else "unrecognised wait status: " ++ toString w.toInt ++ " 0x" ++ hexText n

end WaitStatus

end EclipseProject
