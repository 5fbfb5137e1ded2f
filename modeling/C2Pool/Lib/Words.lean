import Mathlib.Algebra.BigOperators.Intervals
import Mathlib.Algebra.BigOperators.Ring.Finset
import Mathlib.Algebra.Order.BigOperators.Group.Finset
import Mathlib.Algebra.Order.BigOperators.Group.List
import Mathlib.Data.BitVec
import Mathlib.Data.Finset.Sort
import Mathlib.Data.List.Lex
import Mathlib.Data.Prod.Lex
import Mathlib.Data.ZMod.Defs
import Mathlib.Order.Lattice.Nat
import Mathlib.Tactic.Ring

/-! # Machine words

Words are numbers below a power of two.  The instances their literals need are
declared once, by size, so that a literal is the same term in every module.
-/

namespace C2Pool

instance neZeroByte : NeZero 256 := inferInstance

instance neZeroWord8 : NeZero (2 ^ 8) := inferInstance

instance neZeroWord16 : NeZero (2 ^ 16) := inferInstance

instance neZeroWord32 : NeZero (2 ^ 32) := inferInstance

instance neZeroWord64 : NeZero (2 ^ 64) := inferInstance

instance neZeroWord128 : NeZero (2 ^ 128) := inferInstance

instance neZeroWord160 : NeZero (2 ^ 160) := inferInstance

instance neZeroWord256 : NeZero (2 ^ 256) := inferInstance

instance neZeroWord384 : NeZero (2 ^ 384) := inferInstance

instance neZeroWord768 : NeZero (2 ^ 768) := inferInstance

instance lawfulBEqWord256 : LawfulBEq (Fin (2 ^ 256)) := inferInstance

instance isTransBytes : IsTrans (List (Fin 256)) (· ≤ ·) := inferInstance

instance antisymmBytes : @Std.Antisymm (List (Fin 256)) (· ≤ ·) := inferInstance

instance totalBytes : @Std.Total (List (Fin 256)) (· ≤ ·) := inferInstance

end C2Pool
