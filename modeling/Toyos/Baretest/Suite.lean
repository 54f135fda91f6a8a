import Toyos.Boot.Cmdline
import Toyos.Printf.Pprintf

/-!
# The test framework

A test program prints its environment, announces its tests, runs them one after
the other in the order of their registration and reports each. A failed check
leaves the test through `longjmp`, to the frame that the test saved with `setjmp`
before. The bodies of the tests are arbitrary programs over a machine state.
-/

namespace Toyos.Baretest

open Toyos.Core Toyos.Printf Toyos.Boot

/-- Reasons for stopping. -/
inductive Stop
  /-- A format is not accepted by the compiler. -/
  | format (fault : FormatFault)
  /-- `printf` stops. -/
  | print (fault : Printf.Fault)
  /-- A `longjmp` to a frame that does not exist. -/
  | longjmp
  deriving DecidableEq, Repr

/-- The boot methods. -/
inductive BootMethod
  | multiboot1
  | multiboot2
  | xenPvh
  deriving DecidableEq, Repr

/-- `boot_method_name`. -/
def bootMethodName : BootMethod → List UInt8
  | .multiboot1 => codes "Multiboot 1"
  | .multiboot2 => codes "Multiboot 2"
  | .xenPvh => codes "Xen PVH"

/-- What a test program finds out about its environment. -/
structure Environment where
  /-- `load_addr()`. -/
  loadAddr : BitVec 32
  /-- `current_boot_method`. -/
  bootMethod : BootMethod
  /-- `get_boot_cmdline()`. -/
  cmdline : List Char
  /-- `util::cpuid::get_vendor_id()`. -/
  vendorId : List UInt8
  /-- `util::cpuid::get_extended_brand_string()`. -/
  brandString : List UInt8
  /-- `util::cpuid::hv_bit_present()`. -/
  hvBitPresent : Bool

/-- `test_case::result_t`. -/
inductive Result
  | success
  | failure
  | skipped
  deriving DecidableEq, Repr

/-- The state of a test program. -/
structure Machine (σ : Type) where
  /-- What was printed so far. -/
  console : List UInt8
  /-- The environment. -/
  environment : Environment
  /-- `get_env()`: the frame that was saved last. -/
  env : Option ℕ
  /-- The number of calls of test functions so far. -/
  frames : ℕ
  /-- The frame of the test function that runs. -/
  running : Option ℕ
  /-- Everything else. -/
  state : σ

/-- What a part of the program that belongs to a test did. -/
structure Ran (σ : Type) where
  /-- What it printed. -/
  printed : List UInt8
  /-- What `fail` printed if a check failed. -/
  message : Option (List UInt8)
  /-- The state behind it. -/
  state : σ

/-- A test with its parts from `TEST_CASE_CONDITIONAL`. -/
structure TestCase (σ : Type) where
  /-- `#test_name`. -/
  name : List Char
  /-- `#condition`. -/
  conditionText : List UInt8
  /-- The condition. -/
  condition : σ → Bool
  /-- `test_impl_##test_name`. -/
  impl : σ → Ran σ

/-- A test program. -/
structure TestProgram (σ : Type) where
  /-- `prologue`. -/
  prologue : σ → Ran σ
  /-- The tests in the order of their registration. -/
  testCases : List (TestCase σ)
  /-- `epilogue`. -/
  epilogue : σ → Ran σ

/-- `testcase_disabled_by_cmdline`. -/
def testcaseDisabledByCmdline (cmdline name : List Char) : Bool :=
  let disabled := (CmdlineParser.new cmdline).disableTestcasesOption
  let nameFound := decide (name ∈ disabled)
  let nameWithTestPrefixFound := decide ("test_".toList ++ name ∈ disabled)
  nameFound || nameWithTestPrefixFound

namespace Machine

variable {σ : Type} (m : Machine σ)

/-- `printf` to the console. -/
def printf (fmt : List UInt8) (arp : List Arg) : Except Stop (Machine σ) := do
  let console ← (xvprintfInternal append fmt arp m.console).mapError .print
  return { m with console }

/-- `pprintf` to the console. -/
def pprintf (fmt : List UInt8) (tl : List Ty) (arp : List Arg) : Except Stop (Machine σ) := do
  let fmt ← (autoformat fmt tl).mapError .format
  m.printf fmt arp

/-- `test_protocol::begin`; the count is converted to `unsigned`. -/
def protocolBegin (testCount : ℕ) : Except Stop (Machine σ) :=
  m.pprintf (codes "SOTEST VERSION \x7b\x7d BEGIN \x7b\x7d\n") [.unsignedLong, .unsigned]
    [.long 1, .int (BitVec.ofNat 32 testCount)]

/-- `test_protocol::success`. -/
def protocolSuccess (name : List UInt8) : Except Stop (Machine σ) :=
  m.pprintf (codes "SOTEST SUCCESS \"%s\"\n") [.charPtr] [.string name]

/-- `test_protocol::skip`. -/
def protocolSkip : Except Stop (Machine σ) := m.pprintf (codes "SOTEST SKIP\n") [] []

/-- `test_protocol::fail`. -/
def protocolFail (name : List UInt8) : Except Stop (Machine σ) :=
  m.pprintf (codes "SOTEST FAIL \"%s\"\n") [.charPtr] [.string name]

/-- `test_protocol::end`. -/
def protocolEnd : Except Stop (Machine σ) := m.pprintf (codes "SOTEST END\n") [] []

/-- `print_environment_info`. -/
def printEnvironmentInfo : Except Stop (Machine σ) := do
  let m ← m.printf (codes "Running Guest Test\n") []
  let m ← m.printf (codes "  load addr : %#x\n") [.int m.environment.loadAddr]
  let m ← m.printf (codes "  boot      : %s\n") [.string (bootMethodName m.environment.bootMethod)]
  let m ← m.printf (codes "  cmdline   : %s\n") [.string (m.environment.cmdline.map ascii)]
  let m ← m.printf (codes "  cpu vendor: %s\n") [.string m.environment.vendorId]
  let m ← m.printf (codes "  cpu       : %s\n") [.string m.environment.brandString]
  let m ← m.printf (codes "              ") []
  let m ← if m.environment.hvBitPresent then m.printf (codes "Hypervisor bit set\n") []
    else m.printf (codes "Hypervisor bit not set\n") []
  m.printf (codes "\n") []

/-- Run a part of the program. A failed check prints its message and leaves through `longjmp`,
which needs the saved frame to be that of the test function that runs. -/
def call (part : σ → Ran σ) : Except Stop (Bool × Machine σ) :=
  let ran := part m.state
  let m := { m with console := m.console ++ ran.printed, state := ran.state }
  match ran.message with
  | none => return (true, m)
  | some message => do
    ensure (m.env.isSome ∧ m.env = m.running) .longjmp
    return (false, { m with console := m.console ++ message })

end Machine

namespace TestCase

variable {σ : Type} (t : TestCase σ) (m : Machine σ)

/-- The body of the function that `TEST_CASE_CONDITIONAL` defines. -/
def body : Except Stop (Result × Machine σ) := do
  let m ← m.printf (codes "test case: %s\n") [.string (codes "test_" ++ t.name.map ascii)]
  if t.condition m.state = false then
    let m ← m.printf
      (codes "- skipping as condition is NOT met: `" ++ t.conditionText ++ codes "`\n") []
    return (.skipped, m)
  else if testcaseDisabledByCmdline m.environment.cmdline t.name then
    let m ← m.printf (codes "- skipping as test case is disabled via cmdline\n") []
    return (.skipped, m)
  else
    let (passed, m) ← Machine.call { m with env := m.running } t.impl
    return (if passed then .success else .failure, m)

/-- `fn_`: the body in a frame of its own. -/
def fn : Except Stop (Result × Machine σ) := do
  let (result, m) ← t.body { m with running := some m.frames, frames := m.frames + 1 }
  return (result, { m with running := none })

/-- `test_case::run`. -/
def run : Except Stop (Bool × Machine σ) := do
  let (res, m) ← t.fn m
  match res with
  | .success => return (true, ← m.protocolSuccess (t.name.map ascii))
  | .failure => return (false, ← m.protocolFail (t.name.map ascii))
  | .skipped => return (false, ← m.protocolSkip)

end TestCase

/-- `test_suite::run`. -/
def runSuite {σ : Type} (testCases : List (TestCase σ)) (m : Machine σ) :
    Except Stop (Machine σ) := do
  let m ← m.protocolBegin testCases.length
  let m ← testCases.foldlM (fun m t => do return (← t.run m).2) m
  m.protocolEnd

/-- `main`, as `BARETEST_RUN` defines it. -/
def main {σ : Type} (program : TestProgram σ) (m : Machine σ) : Except Stop (Machine σ) := do
  let m ← m.printEnvironmentInfo
  let (_, m) ← m.call program.prologue
  let m ← runSuite program.testCases m
  let (_, m) ← m.call program.epilogue
  return m

end Toyos.Baretest
