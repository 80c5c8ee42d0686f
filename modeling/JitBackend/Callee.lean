import JitBackend.Handle
import JitBackend.Signature

namespace JitBackend

/-!
# Callees

What is known of a function that can be called: where it is, its signature, the convention it
was declared with, and the memory it may touch.

* `Address` is either a native address or the entry of code installed earlier;
* `Callee` describes a function, `CallSite` adds the arguments of one call;
* `Callee.hasEffects` says whether a call must be kept when its result is not used.
-/

/-- Declared calling convention. All of them are lowered in the same way. -/
inductive Abi where
  | cdecl | fastcall | stdcall | thiscall
  deriving DecidableEq, Repr

namespace Abi

/-- All conventions. -/
def all : List Abi := [.cdecl, .fastcall, .stdcall, .thiscall]

/-- Spelling in listings and messages. -/
def name : Abi → String
  | .cdecl => "cdecl"
  | .fastcall => "fastcall"
  | .stdcall => "stdcall"
  | .thiscall => "thiscall"

end Abi

/-- Memory that a callee may touch. -/
structure Access where
  load : Bool
  store : Bool
  deriving DecidableEq, Repr

namespace Access

/-- Touches no memory. -/
def nothing : Access := ⟨false, false⟩

/-- Reads memory. -/
def loads : Access := ⟨true, false⟩

/-- Writes memory. -/
def stores : Access := ⟨false, true⟩

/-- Reads and writes memory. -/
def any : Access := ⟨true, true⟩

/-- Spelling in listings and messages. -/
def name : Access → String
  | ⟨false, false⟩ => "pure"
  | ⟨true, false⟩ => "load"
  | ⟨false, true⟩ => "store"
  | ⟨true, true⟩ => "load store"

end Access

/-- Where the code of a callee is. -/
inductive Address where
  /-- An address of the surrounding process. -/
  | native (a : BitVec 64)
  /-- The start of the code of the `n`-th function that was installed. -/
  | installed (n start : Nat)
  deriving DecidableEq, Repr

/-- The address as a word. -/
def Address.word : Address → BitVec 64
  | .native a => a
  | .installed _ start => BitVec.ofNat 64 start

/-- A function that can be called. -/
structure Callee where
  name : String
  address : Address
  sig : Signature
  abi : Abi
  access : Access
  deriving DecidableEq, Repr

/-- Whether a call has effects besides its result. -/
def Callee.hasEffects (c : Callee) : Bool :=
  c.access.store

/-- Target and arguments of one call. -/
structure CallSite where
  callee : Callee
  /-- The arguments from the last to the first. -/
  reversed : List Handle
  deriving DecidableEq, Repr

namespace CallSite

/-- A call with arguments in source order. -/
def ofArgs (callee : Callee) (args : List Handle) : CallSite :=
  ⟨callee, args.reverse⟩

/-- The arguments in source order, in which they are passed. -/
def args (s : CallSite) : List Handle :=
  s.reversed.reverse

end CallSite

end JitBackend
