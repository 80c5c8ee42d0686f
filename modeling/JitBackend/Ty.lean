namespace JitBackend

/-!
# Value types

The types of the values that instructions read and produce.

* `Width` and `FloatSize` are the two integer and the two float sizes;
* `ValTy` is the type of a value, `Ty` the type of a result, which may be `void`;
* `Ty.name` is the spelling used in listings and messages, `Ty.letter` the suffix of opcode names.
-/

/-- Width of an integer value or operation. -/
inductive Width where
  | w32
  | w64
  deriving DecidableEq, Repr

/-- Size of a float value or operation. -/
inductive FloatSize where
  | single
  | double
  deriving DecidableEq, Repr

/-- Type of a value. -/
inductive ValTy where
  | int (w : Width)
  | float (s : FloatSize)
  deriving DecidableEq, Repr

/-- Type of a result: a value, or none at all. -/
inductive Ty where
  | void
  | val (t : ValTy)
  deriving DecidableEq, Repr

/-- Number of bits of an integer width. -/
def Width.bits : Width → Nat
  | .w32 => 32
  | .w64 => 64

/-- Whether this is the 64-bit width. -/
def Width.isWide : Width → Bool
  | .w32 => false
  | .w64 => true

/-- Suffix of the opcodes that work on this width. -/
def Width.letter : Width → String
  | .w32 => "i"
  | .w64 => "q"

/-- Suffix of the opcodes that work on this float size. -/
def FloatSize.letter : FloatSize → String
  | .single => "f"
  | .double => "d"

namespace ValTy

/-- 32-bit integer. -/
@[match_pattern] abbrev int32 : ValTy := .int .w32

/-- 64-bit integer; pointers have this type. -/
@[match_pattern] abbrev int64 : ValTy := .int .w64

/-- 64-bit float. -/
@[match_pattern] abbrev float64 : ValTy := .float .double

/-- 32-bit float. -/
@[match_pattern] abbrev float32 : ValTy := .float .single

/-- The four value types in table order. -/
def all : List ValTy := [int32, int64, float64, float32]

/-- Whether values of this type live in float registers. -/
def isFloat : ValTy → Bool
  | .int _ => false
  | .float _ => true

/-- Size in bytes. -/
def size : ValTy → Nat
  | .int32 => 4
  | .int64 => 8
  | .float64 => 8
  | .float32 => 4

/-- Spelling in listings and messages. -/
def name : ValTy → String
  | .int32 => "int32"
  | .int64 => "int64"
  | .float64 => "float64"
  | .float32 => "float32"

/-- Suffix of the opcodes that work on this type. -/
def letter : ValTy → String
  | .int w => w.letter
  | .float s => s.letter

end ValTy

namespace Ty

/-- The five result types in table order. -/
def all : List Ty := .void :: ValTy.all.map .val

/-- Whether a value of this type lives in a float register. -/
def isFloat : Ty → Bool
  | .void => false
  | .val t => t.isFloat

/-- Whether this is one of the integer types. -/
def isInt : Ty → Bool
  | .void => false
  | .val t => !t.isFloat

/-- Size in bytes, zero for `void`. -/
def size : Ty → Nat
  | .void => 0
  | .val t => t.size

/-- Spelling in listings and messages. -/
def name : Ty → String
  | .void => "void"
  | .val t => t.name

/-- Suffix of the opcodes that produce this type. -/
def letter : Ty → String
  | .void => "v"
  | .val t => t.letter

end Ty

end JitBackend
