import AuthLogic.Term

/-! # Substitutions

Finite maps from variables to entities. Bindings are kept as they were found, and
a variable is looked up by walking from binding to binding: if `Y` is bound to
`X` and `X` to `Alice`, then `Y` resolves to `Alice`. Joining two substitutions
is therefore a plain union, which is refused when they disagree on a variable.
-/

namespace AuthLogic

structure Binding where
  mention : Mention
  term : Entity
  deriving DecidableEq, Repr, Inhabited

namespace Binding

def var (b : Binding) : Variable :=
  b.mention.var

def render (b : Binding) : String :=
  b.var.name ++ b.var.scope.render ++ " -> " ++ b.term.render

/-- The binding without the types written on either side. -/
def untyped (b : Binding) : Binding :=
  ⟨{ b.mention with type? := none }, Term.untyped b.term⟩

end Binding

structure Substitution where
  bindings : Catalogue Binding.var
  deriving DecidableEq, Inhabited

namespace Substitution

def empty : Substitution := ⟨.empty⟩

def singleton (m : Mention) (term : Entity) : Substitution :=
  ⟨⟨[⟨m, term⟩], List.pairwise_singleton ..⟩⟩

/-- Of several bindings of one variable, the last. -/
def ofList (l : List Binding) : Substitution :=
  ⟨.ofLast l⟩

def toList (θ : Substitution) : List Binding :=
  θ.bindings.entries

def size (θ : Substitution) : Nat :=
  θ.bindings.size

/-- The entity that a variable is bound to. -/
def get? (θ : Substitution) (v : Variable) : Option Entity :=
  (θ.bindings.find? v).map Binding.term

def insert (θ : Substitution) (b : Binding) : Substitution :=
  ⟨θ.bindings.insert b⟩

/-- Follow bindings from an entity for a number of steps. A walk ends at a constant, at an unbound
variable, and where it comes back to the variable that it started from. -/
def walk (θ : Substitution) (start : Variable) : Nat → Entity → Entity
  | 0, e => e
  | _ + 1, .const c => .const c
  | n + 1, .var m =>
    match θ.get? m.var with
    | some next => if m.var = start then .var m else θ.walk start n next
    | none => .var m

/-- The end of the walk from a bound variable. There is no need to walk further than there are
bindings: a longer walk goes round in a cycle. -/
def resolve? (θ : Substitution) (v : Variable) : Option Entity :=
  (θ.get? v).map (θ.walk v θ.size)

/-- What a mention stands for: itself if its variable is unbound. -/
def resolve (θ : Substitution) (m : Mention) : Entity :=
  (θ.resolve? m.var).getD (.var m)

def apply {τ : Type} [Term τ] (θ : Substitution) : τ → τ :=
  Term.substitute θ.resolve?

theorem apply_eq_replace {τ : Type} [Term τ] (θ : Substitution) (t : τ) :
    θ.apply t = Term.replace θ.resolve t :=
  Term.substitute_eq_replace θ.resolve? t

/-- Take over one binding, or refuse it if its variable is bound to another entity. -/
def extend? (θ : Substitution) (b : Binding) : Option Substitution :=
  match θ.get? b.var with
  | none => some (θ.insert b)
  | some e => if Term.Same e b.term then some θ else none

/-- The union of two substitutions, unless they bind some variable to different entities. -/
def merge? (θ η : Substitution) : Option Substitution :=
  η.toList.foldlM extend? θ

/-- Equal up to the types that variables are written with. -/
def Same (θ η : Substitution) : Prop :=
  θ.toList.map Binding.untyped = η.toList.map Binding.untyped

instance (θ η : Substitution) : Decidable (θ.Same η) :=
  inferInstanceAs (Decidable (_ = _))

def render (θ : Substitution) : String :=
  "\x7b" ++ ", ".intercalate (θ.toList.map Binding.render) ++ "\x7d"

theorem get?_insert_of_ne (θ : Substitution) {b : Binding} {v : Variable} (h : b.var ≠ v) :
    (θ.insert b).get? v = θ.get? v := by
  rw [get?, insert, Catalogue.find?_insert_of_ne _ (mt Std.LawfulEqOrd.eq_of_compare h)]
  rfl

end Substitution

end AuthLogic
