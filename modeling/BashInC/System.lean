import BashInC.IoHelpers

/-!
The system calls that the builtins make, over any type `W` of states of the
system, and what a builtin returns to the main loop. Nothing is assumed of the
calls but that each depends on the state of the system and its arguments only.
-/
namespace BashInC.System
open Clib.Strings BashInC.IoHelpers

inductive FileKind
  | directory | other
  deriving DecidableEq

/-- The system calls, each with its result, `none` or `false` on failure, and the state after it. The
    result of `opendir` is what `readdir` yields, that of `fopen` what reading the file yields. -/
structure Kernel (W : Type*) where
  opendir : W → List Byte → Option (List CStr) × W
  closedir : W → W
  lstat : W → List Byte → Option FileKind × W
  fopen : W → List Byte → Option (List Byte) × W
  chdir : W → List Byte → Bool × W
  cwd : W → Option (List Byte)

/-- `getcwd(buf, size)`, which also fails when the path and its terminator do not fit. -/
def Kernel.getcwd {W : Type*} (k : Kernel W) (w : W) (size : Nat) : Option (List Byte) :=
  (k.cwd w).filter (·.length < size)

/-- What a builtin returns, what it does, and the state of the system it leaves. -/
structure Effect (W : Type*) where
  ret : Int
  events : List Event
  world : W

/-- A system whose only directory is the current one, `./` at `/`, with nothing in it. -/
def bare : Kernel Unit where
  opendir _ path := (if path = lit "./" then some [] else none, ())
  closedir _ := ()
  lstat _ _ := (none, ())
  fopen _ _ := (none, ())
  chdir _ _ := (false, ())
  cwd _ := some (lit "/")

end BashInC.System
