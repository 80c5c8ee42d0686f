import JitBackend.Eval
import JitBackend.Samples

namespace JitBackend.Cli

/-!
# Command line

Builds the sample functions, runs them and prints the results. The options are read strictly:
unknown ones, repeated ones and anything that is not an option are refused.

* `parse` reads the arguments, `run` does the work;
* `Outcome` is what is printed and the exit code.
-/

/-- Options given. -/
structure Options where
  verbose : Bool
  noOptimize : Bool
  stats : Bool
  deriving DecidableEq, Repr

/-- What the arguments ask for. -/
inductive Demand where
  | run (o : Options)
  | help
  | refuse
  deriving DecidableEq, Repr

/-- A single option. -/
inductive Flag where
  | verbose | noOptimize | stats | help
  deriving DecidableEq, Repr

/-- Sets an option, unless it is already set. -/
def Options.set (o : Options) : Flag → Option Options
  | .verbose => if o.verbose then none else some { o with verbose := true }
  | .noOptimize => if o.noOptimize then none else some { o with noOptimize := true }
  | .stats => if o.stats then none else some { o with stats := true }
  | .help => some o

/-- The options that one argument stands for; letters after a single dash may be joined. An
    unknown one comes out as `none`. -/
def flagsOf (arg : String) : List (Option Flag) :=
  if arg = "--verbose" then [some .verbose]
  else if arg = "--no-optimize" then [some .noOptimize]
  else if arg = "--stats" then [some .stats]
  else if arg = "--help" then [some .help]
  else
    match arg.toList with
    | '-' :: c :: cs =>
      if c = '-' then [none]
      else (c :: cs).map fun c =>
        if c = 'v' then some .verbose else if c = 'h' then some .help else none
    | _ => [none]

/-- Takes options in order; the first one that asks for help or cannot be taken decides. -/
def apply (o : Options) : List (Option Flag) → Demand
  | [] => .run o
  | none :: _ => .refuse
  | some .help :: _ => .help
  | some f :: rest =>
    match o.set f with
    | some o => apply o rest
    | none => .refuse

/-- Options of the arguments up to a bare double dash, after which nothing may follow. -/
def expand : List String → List (Option Flag)
  | [] => []
  | arg :: rest =>
    if arg = "--" then rest.map fun _ => none else flagsOf arg ++ expand rest

/-- What the arguments ask for. -/
def parse (args : List String) : Demand :=
  apply ⟨false, false, false⟩ (expand args)

/-- Text of the help option. -/
def helpText : String :=
  "Compile and run the LIR sample functions\n\n"
    ++ "Usage: lirjit [OPTIONS]\n\n"
    ++ "Options:\n"
    ++ "  -v, --verbose      Trace appended instructions and log native disassembly\n"
    ++ "      --no-optimize  Build without the CSE and algebraic stages\n"
    ++ "      --stats        Print session statistics after running the samples\n"
    ++ "  -h, --help         Print help\n"

/-- What a run prints, and its exit code. -/
structure Outcome where
  out : String
  err : String
  code : Nat
  deriving DecidableEq, Repr

/-- Steps that a sample may take. -/
def sampleSteps : Nat := 100

/-- The calls that are shown, with their arguments. -/
def shownCalls : List (String × List Nat) :=
  [("ret0", []), ("add2", [5]), ("sum", [100, 200]), ("mult", [100, 200]), ("chain", [3, 4])]

/-- Text of an integer result. -/
def resultText (v : Const) : String :=
  match v.int? with
  | some n => toString n.toInt
  | none => "?"

/-- Line that shows a call. -/
def callLine (c : Context) (call : String × List Nat) : String :=
  match c.eval call.1 (call.2.map (BitVec.ofNat 64)) sampleSteps with
  | some v =>
    call.1 ++ "(" ++ ", ".intercalate (call.2.map toString) ++ ") = " ++ resultText v ++ "\n"
  | none => ""

/-- Lines of the statistics. -/
def statsLines (s : Stats) : List String :=
  [s!"functions compiled:     {s.functions}",
   s!"instructions compiled:  {s.instructions}",
   s!"total code size:        {s.codeSize} bytes",
   s!"largest function:       {s.largestName} ({s.largestSize} bytes)",
   s!"registers allocated:    {s.registers}",
   s!"spills generated:       {s.spills}",
   s!"call sites:             {s.calls}",
   s!"cse hits:               {s.hits}",
   s!"simplifications:        {s.simplifications}"]

/-- Builds and runs the samples. -/
def runSamples [Machine.BlockEncoder] (supply : Nat → Supply) (config : Config) (o : Options) :
    Outcome :=
  match Context.create config with
  | .error f => ⟨"", f.message ++ "\n", 101⟩
  | .ok c =>
    match Samples.build (!o.noOptimize) supply c with
    | .error (.error e) _ => ⟨"", "lirjit: " ++ e.message ++ "\n", 1⟩
    | .error (.fault f) _ => ⟨"", f.message ++ "\n", 101⟩
    | .ok () c =>
      let results := String.join (shownCalls.map (callLine c))
      let stats :=
        if o.stats then String.join ((statsLines c.session.stats).map (· ++ "\n")) else ""
      ⟨results ++ stats, "", 0⟩

/-- Does what the arguments ask for, in an environment that `lookup` reads. -/
def run [Machine.BlockEncoder] (supply : Nat → Supply) (lookup : String → Option String)
    (args : List String) : Outcome :=
  match parse args with
  | .help => ⟨helpText, "", 0⟩
  | .refuse => ⟨"", "error: invalid arguments\n", 2⟩
  | .run o => runSamples supply { Config.ofEnvironment lookup with verbose := o.verbose } o

end JitBackend.Cli
