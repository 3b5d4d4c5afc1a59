import DesignCompiler.ClassName.Identifier

/-!
# DesignCompiler — unique names

Classes are global to a page, so a class name is handed out once. The first claimant keeps its name;
a later one gets the name with the smallest number from two on that nobody has.

* `candidate` — the forms of a name, in the order in which they are tried;
* `Allocator.allocate` — the first form that is free, which from now on is taken.
-/

namespace DesignCompiler.ClassName

/-- The name itself, then the name with 2, with 3, and so on. -/
def candidate (raw : String) : Nat → String
  | 0 => raw
  | n + 1 => raw ++ "-" ++ toString (n + 2)

/-- The first form of a name that is not taken. There is one more form to try than there are taken
names, so one of them is free. -/
def firstFree (taken : List String) (raw : String) : String :=
  match (List.range (taken.length + 1)).find? fun n => !taken.contains (candidate raw n) with
  | some n => candidate raw n
  | none => raw

/-- The names handed out so far on one page. -/
structure Allocator where
  /-- The prefix of every class. -/
  lead : Option String
  /-- The latest first. -/
  taken : List String := []

namespace Allocator

/-- The class for the next element, and the names that are taken then. -/
def allocate (a : Allocator) (name fallback : String) : String × Allocator :=
  let ident := firstFree a.taken (identifier name fallback a.lead)
  (ident, { a with taken := ident :: a.taken })

/-- How many names are taken. -/
def size (a : Allocator) : Nat :=
  a.taken.length

end Allocator

end DesignCompiler.ClassName
