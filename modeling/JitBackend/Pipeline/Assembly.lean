import JitBackend.Config
import JitBackend.Pipeline.Chain

namespace JitBackend

/-!
# Assembled pipelines

The chain of stages of one function, chosen by the settings. A function without optimisation
gets at most the checker at the front and the tracer; with optimisation the simplifier and the
sharing stage come in between and a second checker stands at the end.

* `Pipeline.ofConfig` assembles a chain, `Pipeline.feed` sends an instruction through it;
* `Pipeline.hits` and `Pipeline.simplifications` are its counters.
-/

-- the zero that sums of numbers start from
attribute [local instance (high)] Zero.ofOfNat0

/-- A chain of some length. -/
structure Pipeline where
  depth : Nat
  chain : Chain depth

namespace Pipeline

/-- The pipeline of the given stages, in the order in which they see instructions. -/
def ofStages (stages : List Stage) : Pipeline :=
  ⟨stages.length, .ofList stages⟩

/-- The stages, first to last. -/
def stages (p : Pipeline) : List Stage :=
  p.chain.toList

/-- Names of the stages, first to last. -/
def stageNames (p : Pipeline) : List String :=
  p.stages.map Stage.name

/-- Every stage that a pipeline can have, in order, with whether the settings ask for it. -/
def candidates (c : Config) (optimize : Bool) : List (Stage × Bool) :=
  [(.check "start of writer pipeline", c.validate),
    (.simplify 0, optimize && c.simplify),
    (.share .empty 0, optimize && c.shareDuplicates),
    (.trace 0, c.verbose),
    (.check "end of writer pipeline", optimize && c.validate)]

/-- The stages that the settings ask for. -/
def stagesFor (c : Config) (optimize : Bool) : List Stage :=
  ((candidates c optimize).filter Prod.snd).map Prod.fst

/-- The pipeline that the settings ask for. -/
def ofConfig (c : Config) (optimize : Bool) : Pipeline :=
  ofStages (stagesFor c optimize)

/-- The report about an assembled pipeline. -/
def built (p : Pipeline) : Event :=
  .pipelineBuilt p.stageNames

/-- Duplicates answered so far. -/
def hits (p : Pipeline) : Nat :=
  (p.stages.map Stage.hits).sum

/-- Simplifications made so far. -/
def simplifications (p : Pipeline) : Nat :=
  (p.stages.map Stage.simplifications).sum

/-- Sends an instruction through the pipeline. -/
def feed (p : Pipeline) (i : Instr) (w : Workspace) : Except Fault Handle × Pipeline × Workspace :=
  let r := p.chain.feed i w
  (r.answer, ⟨p.depth, r.chain⟩, r.space)

end Pipeline

end JitBackend
