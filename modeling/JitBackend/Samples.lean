import JitBackend.Finish

namespace JitBackend

/-!
# Sample functions

Five small functions that show how functions are built.

* `Samples.build` builds all of them in a context.
-/

namespace Samples

/-- A sample: its name and how its instructions are added. -/
structure Sample where
  name : String
  body : Build Unit

/-- `ret0() = 0`. -/
def ret0 : Build Unit := do
  let zero ← Build.append (.imm32 0)
  let _ ← Build.returnValue .int32 zero

/-- `add2(x) = x + 2` on 32-bit integers. -/
def add2 : Build Unit := do
  let x ← Build.parameter
  let x ← Build.append (.plain (.convert .q2i) [x])
  let two ← Build.append (.imm32 2)
  let sum ← Build.append (.plain (.arith .w32 .add) [x, two])
  let _ ← Build.returnValue .int32 sum

/-- `sum(x, y) = x + y`. -/
def sum : Build Unit := do
  let x ← Build.parameter
  let y ← Build.parameter
  let sum ← Build.append (.plain (.arith .w64 .add) [x, y])
  let _ ← Build.returnValue .int64 sum

/-- `mult(x, y) = (x * y) * 8`. -/
def mult : Build Unit := do
  let x ← Build.parameter
  let y ← Build.parameter
  let product ← Build.append (.plain (.arith .w64 .mul) [x, y])
  let eight ← Build.append (.const (.int64 8))
  let scaled ← Build.append (.plain (.arith .w64 .mul) [product, eight])
  let _ ← Build.returnValue .int64 scaled

/-- `chain(x, y) = mult(sum(x, y), 2)`. -/
def chain : Build Unit := do
  let x ← Build.parameter
  let y ← Build.parameter
  let s ← Build.call "sum" (.call (.val .int64)) .cdecl [x, y]
  let two ← Build.append (.const (.int64 2))
  let m ← Build.call "mult" (.call (.val .int64)) .cdecl [s, two]
  let _ ← Build.returnValue .int64 m

/-- All samples, in an order in which callees come first. -/
def all : List Sample :=
  [⟨"ret0", ret0⟩, ⟨"add2", add2⟩, ⟨"sum", sum⟩, ⟨"mult", mult⟩, ⟨"chain", chain⟩]

/-- Builds one sample. -/
def buildOne [Machine.BlockEncoder] (optimize : Bool) (supply : Supply) (sample : Sample) :
    Finish Unit := do
  let building := (← get).startFunction sample.name optimize
  match sample.body building with
  | .error e s =>
    set s.context
    throw (e.map .build)
  | .ok () s =>
    match s.finish supply with
    | .error e c =>
      set c
      throw e
    | .ok _ c => set c

/-- Builds all samples; the process supplies what `supply` says for each of them. -/
def build [Machine.BlockEncoder] (optimize : Bool) (supply : Nat → Supply) : Finish Unit :=
  all.zipIdx.forM fun (sample, n) => buildOne optimize (supply n) sample

end Samples

end JitBackend
