/-! # Scopes

Every assertion has a scope of its own, and a variable is told apart by its name
together with the scope it was written in. Scopes are handed out in increasing
order, starting after the unscoped `0` of terms that belong to no assertion yet.
-/

namespace AuthLogic

structure Scope where
  id : UInt64
  deriving DecidableEq, Repr, Inhabited

namespace Scope

def unscoped : Scope := ⟨0⟩

def isUnscoped (s : Scope) : Bool :=
  s = unscoped

def render (s : Scope) : String :=
  "#" ++ s.id.toNat.repr

instance : Ord Scope := ⟨compareOn id⟩

instance : Std.TransOrd Scope := inferInstanceAs (Std.TransCmp (compareOn id))

instance : Std.LawfulEqOrd Scope where
  eq_of_compare {a b} h := by
    have : a.id = b.id := Std.LawfulEqOrd.eq_of_compare (show compare a.id b.id = .eq from h)
    cases a; cases b; simp_all

end Scope

/-- The scope handed out last, `Scope.unscoped` before the first. -/
structure ScopeSupply where
  current : Scope := Scope.unscoped
  deriving DecidableEq, Repr, Inhabited

namespace ScopeSupply

def advance (a : ScopeSupply) : ScopeSupply :=
  ⟨⟨a.current.id + 1⟩⟩

/-- The next scope, and the allocator after handing it out. -/
def next (a : ScopeSupply) : Scope × ScopeSupply :=
  (a.advance.current, a.advance)

def reset (_ : ScopeSupply) : ScopeSupply := {}

end ScopeSupply

end AuthLogic
