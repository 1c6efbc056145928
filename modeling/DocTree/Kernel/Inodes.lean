import DocTree.Path
import Std.Data.ExtTreeMap

namespace DocTree

-- Documents are found by path, but the kernel speaks of numbers, so every path it is told about
-- gets one. No number is given out twice, also not after its path is forgotten.
structure Inodes where
  paths : Std.ExtTreeMap Nat String
  numbers : Std.ExtTreeMap String Nat
  next : Nat

namespace Inodes

def root : Nat := 1

def new : Inodes := ⟨(∅ : Std.ExtTreeMap Nat String).insert root Path.root,
  (∅ : Std.ExtTreeMap String Nat).insert Path.root root, root + 1⟩

-- The number of a path, a new one if it has none yet.
def numberOf (inodes : Inodes) (path : String) : Nat × Inodes :=
  match inodes.numbers[path]? with
  | some number => (number, inodes)
  | none =>
    (inodes.next, {
      paths := inodes.paths.insert inodes.next path
      numbers := inodes.numbers.insert path inodes.next
      next := inodes.next + 1 })

def pathOf? (inodes : Inodes) (number : Nat) : Option String := inodes.paths[number]?

def forget (inodes : Inodes) (path : String) : Inodes :=
  if path = Path.root then
    inodes
  else
    match inodes.numbers[path]? with
    | some number =>
      -- The next number stays as it is, so this one is not given out again.
      { inodes with
        paths := inodes.paths.erase number
        numbers := inodes.numbers.erase path }
    | none => inodes

end Inodes

end DocTree
