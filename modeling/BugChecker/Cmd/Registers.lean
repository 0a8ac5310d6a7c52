import BugChecker.Cmd.Tokenize
import BugChecker.Crt.Strtoxq
import BugChecker.Step.Context

/-!
# Arguments of commands

An argument is the name of a register, a hexadecimal number, or else a symbol or
a script.
-/

namespace BugChecker.Cmd

open Step (Context Gpr ZydisRegister)

/-- `Utils::AreStringsEqualI`. -/
def areStringsEqualI (s t : Text) : Bool := toLower s = toLower t

/-- The names that `StringToZydisReg` knows. -/
def regNames : List (String × ZydisRegister) :=
  [("RAX", .q .rax), ("RBX", .q .rbx), ("RCX", .q .rcx), ("RDX", .q .rdx), ("RSI", .q .rsi),
    ("RDI", .q .rdi),
    ("RSP", .q .rsp), ("RBP", .q .rbp), ("R8", .q .r8), ("R9", .q .r9), ("R10", .q .r10),
    ("R11", .q .r11),
    ("R12", .q .r12), ("R13", .q .r13), ("R14", .q .r14), ("R15", .q .r15), ("RIP", .q .rip),
    ("EAX", .d .rax), ("EBX", .d .rbx), ("ECX", .d .rcx), ("EDX", .d .rdx), ("ESI", .d .rsi),
    ("EDI", .d .rdi),
    ("ESP", .d .rsp), ("EBP", .d .rbp), ("EIP", .d .rip)]

def stringToZydisReg (str : Text) : ZydisRegister :=
  match regNames.find? fun name => areStringsEqualI name.1.toList str with
  | some (_, reg) => reg
  | none => .none

def isHexDigit (c : Char) : Bool :=
  ('0' ≤ c && c ≤ '9') || ('A' ≤ c && c ≤ 'F') || ('a' ≤ c && c ≤ 'f')

def hexDigits (arg : Text) : Option Text :=
  let digits := if "0x".toList.isPrefixOf arg then arg.drop 2 else arg
  if 0 < digits.length && digits.length ≤ 16 && digits.all isHexDigit then some digits else none

/-- `Cmd::ResolveArg`. Symbols and scripts are evaluated elsewhere, with a message when that fails.
-/
def resolveArg (build : Build) (evaluate : Text → Except String UInt64) (arg : Text)
    (ctx : Context) :
    Except String UInt64 :=
  match ctx.value build (stringToZydisReg arg) with
  | some val => .ok val
  | none =>
    match hexDigits arg with
    | some digits => .ok (.ofNat (Crt.strtoui64 digits 16))
    | none => evaluate arg

end BugChecker.Cmd
