import JitBackend.Ty

namespace JitBackend

/-!
# Packed signatures

A signature is one 32-bit word: the kind of the result in the low three bits, then three bits
for each of up to eight arguments, then the number of arguments.

* `Signature.ofKinds?` packs a result kind and a list of argument kinds;
* `Signature.ret`, `Signature.argCount`, `Signature.arg?` and `Signature.args` read the fields;
* `Signature.isCompatible` compares two signatures up to the signedness of 32-bit integers.
-/

/-- Kinds of arguments and results. -/
inductive ArgKind where
  | void | int32 | uint32 | int64 | float64 | float32
  deriving DecidableEq, Repr

namespace ArgKind

/-- Three-bit code of the kind. -/
def code : ArgKind → BitVec 32
  | .void => 0
  | .int32 => 1
  | .uint32 => 2
  | .int64 => 3
  | .float64 => 4
  | .float32 => 5

/-- The kind with the given code. -/
def ofCode? (c : BitVec 32) : Option ArgKind :=
  [void, int32, uint32, int64, float64, float32].find? fun k => k.code == c

/-- Kind of a value of the given type; integers count as signed. -/
def ofTy : Ty → ArgKind
  | .void => .void
  | .val .int32 => .int32
  | .val .int64 => .int64
  | .val .float64 => .float64
  | .val .float32 => .float32

/-- Type of the values of this kind. -/
def ty : ArgKind → Ty
  | .void => .void
  | .int32 | .uint32 => .val .int32
  | .int64 => .val .int64
  | .float64 => .val .float64
  | .float32 => .val .float32

/-- The kind with its signedness forgotten. -/
def unsignedErased : ArgKind → ArgKind
  | .uint32 => .int32
  | k => k

/-- Spelling in listings and messages. -/
def name : ArgKind → String
  | .void => "void"
  | .int32 => "int32"
  | .uint32 => "uint32"
  | .int64 => "int64"
  | .float64 => "float64"
  | .float32 => "float32"

end ArgKind

/-- Largest number of arguments of a call. -/
def maxArgs : Nat := 8

/-- Result kind and argument kinds packed into one word. -/
structure Signature where
  word : BitVec 32
  deriving DecidableEq, Repr

namespace Signature

/-- Argument codes, three bits each, the first one lowest. -/
def packArgs : List ArgKind → BitVec 32
  | [] => 0
  | k :: ks => k.code ||| (packArgs ks <<< 3)

/-- Packs a signature; `none` for more than `maxArgs` arguments. -/
def ofKinds? (ret : ArgKind) (args : List ArgKind) : Option Signature :=
  if args.length ≤ maxArgs then
    some ⟨ret.code ||| (packArgs args <<< 3) ||| (BitVec.ofNat 32 args.length <<< 27)⟩
  else
    none

/-- Code in the three bits of field `i`; field 0 is the result. -/
def field (s : Signature) (i : Nat) : BitVec 32 :=
  (s.word >>> (3 * i)) &&& 7

/-- Kind of the result; a code that names no kind reads as `void`. -/
def ret (s : Signature) : ArgKind :=
  (ArgKind.ofCode? (s.field 0)).getD .void

/-- Number of arguments. -/
def argCount (s : Signature) : Nat :=
  (s.word >>> 27).toNat

/-- Kind of argument `i`, counted from the left. -/
def arg? (s : Signature) (i : Nat) : Option ArgKind :=
  if i < s.argCount then ArgKind.ofCode? (s.field (i + 1)) else none

/-- Kinds of all arguments. -/
def args (s : Signature) : List ArgKind :=
  (List.range s.argCount).filterMap s.arg?

/-- Whether both signatures put results and arguments into the same places. -/
def isCompatible (s t : Signature) : Bool :=
  s.argCount == t.argCount && s.ret.unsignedErased == t.ret.unsignedErased
    && (s.args.zip t.args).all fun p => p.1.unsignedErased == p.2.unsignedErased

/-- Text of a signature: result, then the arguments in parentheses. -/
def text (s : Signature) : String :=
  s.ret.name ++ " (" ++ ", ".intercalate (s.args.map ArgKind.name) ++ ")"

end Signature

end JitBackend
