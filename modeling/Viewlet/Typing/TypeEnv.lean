import Viewlet.Listing
import Viewlet.Typing.Subst

/-!
Type environments: the schemes of the names in scope, one for each name.
-/

namespace Viewlet

/-- The schemes of names. -/
structure TypeEnv where
  bindings : List (String × Scheme)
  deriving DecidableEq, Repr

namespace TypeEnv

/-- The environment without names. -/
def empty : TypeEnv := ⟨[]⟩

/-- The scheme of a name. -/
def get? (env : TypeEnv) (name : String) : Option Scheme :=
  env.bindings.lookup name

/-- Gives a name a scheme, instead of the one it had. -/
def insert (env : TypeEnv) (name : String) (scheme : Scheme) : TypeEnv :=
  ⟨(name, scheme) :: env.bindings.filter fun binding => binding.1 != name⟩

/-- The environment with the given schemes, the last one of a name. -/
def ofList (bindings : List (String × Scheme)) : TypeEnv :=
  bindings.foldl (fun env binding => env.insert binding.1 binding.2) empty

/-- The number of names. -/
def size (env : TypeEnv) : Nat :=
  env.bindings.length

/-- Whether there are no names. -/
def isEmpty (env : TypeEnv) : Bool :=
  env.bindings.isEmpty

/-- The variables over which some scheme is not general. -/
def freeVars (env : TypeEnv) : List TyVar :=
  env.bindings.flatMap fun binding =>
    binding.2.ty.vars.filter fun v => !binding.2.vars.contains v

/-- Replaces variables in every scheme, also those over which a scheme is general. -/
def subst (env : TypeEnv) (s : Subst) : TypeEnv :=
  ⟨env.bindings.map fun binding =>
    (binding.1, { binding.2 with ty := s.apply binding.2.ty })⟩

/-- The names with their schemes, in the order of the names. -/
def listing (env : TypeEnv) : List (String × Scheme) :=
  sortByName env.bindings

end TypeEnv

end Viewlet
