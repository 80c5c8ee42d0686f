import JitBackend.Cli
import JitBackend.Machine.Layout

/-!
# Entry point

Reads the environment, runs the command line, prints what it says. Blocks are encoded by shrinking
their jumps. The samples are evaluated and not run, so that any addresses do for their code.
-/

attribute [local instance] JitBackend.Machine.shrinking

/-- Addresses for the code of the samples and for the records of their guards. -/
def JitBackend.Samples.supply (n : Nat) : JitBackend.Supply where
  mapped := .ok 0x10000
  refusal := none
  record := BitVec.ofNat 64 (8 * (n + 1))

/-- Runs the command line. -/
def main (args : List String) : IO UInt32 := do
  let env ← JitBackend.Config.settingNames.mapM fun name => do
    return (name, ← IO.getEnv name)
  let lookup := fun name => (env.lookup name).join
  let outcome := JitBackend.Cli.run JitBackend.Samples.supply lookup args
  (← IO.getStdout).putStr outcome.out
  (← IO.getStderr).putStr outcome.err
  return outcome.code.toUInt32
