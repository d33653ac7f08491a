/-!
# Operands

An operand names a register of a memory space, or a member of one through a property path of that
space's table. Operands are ordered by space, index and property path, whole registers first.
-/
namespace NodeGraph

inductive MemorySpace where
  /-- Constants. -/
  | literal
  /-- Storage of one execution. -/
  | work
  /-- Mirrors of watched pins. -/
  | debug
  /-- Variables of the host. -/
  | external
deriving DecidableEq, Repr, Inhabited

namespace MemorySpace

def all : List MemorySpace := [literal, work, debug, external]

def name : MemorySpace → String
  | literal => "Literal"
  | work => "Work"
  | debug => "Debug"
  | external => "External"

def rank : MemorySpace → Nat
  | literal => 0
  | work => 1
  | debug => 2
  | external => 3

theorem eq_of_rank_eq {a b : MemorySpace} (h : a.rank = b.rank) : a = b := by
  cases a <;> cases b <;> first | rfl | cases h

end MemorySpace

structure Operand where
  memory : MemorySpace
  index : Nat
  /-- The number of a property path in the space's table. -/
  propertyPath : Option Nat := none
deriving DecidableEq, Repr, Inhabited

namespace Operand

/-- The operand of the whole register. -/
def whole (o : Operand) : Operand := { o with propertyPath := none }

/-- Text such as `Work[3]`, or `Work[3].p2` with a property path. -/
def describe (o : Operand) : String :=
  let register := o.memory.name ++ "[" ++ toString o.index ++ "]"
  match o.propertyPath with
  | none => register
  | some path => register ++ ".p" ++ toString path

/-! ## Order -/

/-- The property path as a number, with 0 for the whole register. -/
def pathKey (o : Operand) : Nat :=
  match o.propertyPath with
  | none => 0
  | some path => path + 1

theorem eq_of_keys_eq {a b : Operand} (hm : a.memory.rank = b.memory.rank) (hi : a.index = b.index)
    (hp : a.pathKey = b.pathKey) : a = b := by
  obtain ⟨am, ai, ap⟩ := a
  obtain ⟨bm, bi, bp⟩ := b
  obtain rfl : am = bm := MemorySpace.eq_of_rank_eq hm
  obtain rfl : ai = bi := hi
  cases ap <;> cases bp <;> simp_all [pathKey]

instance : Ord Operand :=
  ⟨compareLex (compareOn (·.memory.rank)) (compareLex (compareOn (·.index)) (compareOn pathKey))⟩

instance : Std.TransOrd Operand :=
  inferInstanceAs (Std.TransCmp
    (compareLex (compareOn fun o : Operand => o.memory.rank)
      (compareLex (compareOn (·.index)) (compareOn pathKey))))

instance : Std.LawfulEqOrd Operand where
  compare_self := Std.ReflCmp.compare_self
  eq_of_compare {a b} h := by
    have h : (compare a.memory.rank b.memory.rank).then
        ((compare a.index b.index).then (compare a.pathKey b.pathKey)) = .eq := h
    obtain ⟨hm, h⟩ := Ordering.then_eq_eq.1 h
    obtain ⟨hi, hp⟩ := Ordering.then_eq_eq.1 h
    exact eq_of_keys_eq (Std.LawfulEqCmp.eq_of_compare hm) (Std.LawfulEqCmp.eq_of_compare hi)
      (Std.LawfulEqCmp.eq_of_compare hp)

end Operand
end NodeGraph
