import JitBackend.Text.Record

namespace JitBackend

/-!
# Settings

Options of a compilation context, fixed when it is created. The optimising stages are installed
only for functions that ask for optimisation; the flags here switch them off one by one.

* `Config.standard` holds the defaults;
* `Config.ofEnvironment` overlays them with environment variables.
-/

/-- What happens when a call does not fit the signature of its callee. -/
inductive MismatchPolicy where
  /-- The process gives up. -/
  | abort
  /-- The call is refused with an error. -/
  | error
  deriving DecidableEq, Repr

/-- Spelling in summaries. -/
def MismatchPolicy.name : MismatchPolicy → String
  | .abort => "Abort"
  | .error => "Error"

/-- Options of a compilation context. -/
structure Config where
  /-- Share duplicates of pure instructions. -/
  shareDuplicates : Bool
  /-- Simplify integer instructions. -/
  simplify : Bool
  /-- Trace appended instructions. -/
  verbose : Bool
  /-- Check instructions at both ends of the pipeline. -/
  validate : Bool
  mismatch : MismatchPolicy
  /-- Least size in bytes of a chunk of code memory. -/
  chunkSize : Nat
  /-- Largest frame in bytes that a function may use. -/
  maxFrame : Nat
  deriving DecidableEq, Repr

namespace Config

/-- The defaults. -/
def standard : Config where
  shareDuplicates := true
  simplify := true
  verbose := false
  validate := true
  mismatch := .abort
  chunkSize := 64 * 1024
  maxFrame := 32 * 1024

/-- Whether the value of an environment variable counts as set. -/
def isFlagSet (value : Option String) : Bool :=
  match value with
  | some v => v != "" && v != "0"
  | none => false

/-- The environment variables that settings come from. -/
def settingNames : List String :=
  ["LIRJIT_VERBOSE", "LIRJIT_NO_CSE", "LIRJIT_NO_EXPR"]

/-- The defaults overlaid with the environment, which `lookup` reads. -/
def ofEnvironment (lookup : String → Option String) : Config :=
  { standard with
    verbose := isFlagSet (lookup "LIRJIT_VERBOSE")
    shareDuplicates := !isFlagSet (lookup "LIRJIT_NO_CSE")
    simplify := !isFlagSet (lookup "LIRJIT_NO_EXPR") }

/-- One-line summary. -/
def summary (c : Config) : String :=
  Text.record "JitConfig"
    [("cse", Text.bool c.shareDuplicates), ("expr_filter", Text.bool c.simplify),
     ("verbose", Text.bool c.verbose), ("validate", Text.bool c.validate),
     ("signature_mismatch", c.mismatch.name), ("chunk_size", toString c.chunkSize),
     ("max_frame_size", toString c.maxFrame)]

end Config

end JitBackend
