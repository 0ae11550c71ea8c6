import Lash.State
import Lash.Lib.Search

/-!
# Client dependencies

`lashd/client_dependency.c`. A client lists the ids of the clients it depends on. The check for a
circular dependency walks the dependencies of the clients of *one* list, whichever the caller
passes, by plain recursion; where that recursion does not end the daemon overflows its stack, which
is the `none` of `clientDependencyFindCircular` and of everything built on it.
-/

namespace Lash

open Search

/-- `project_get_client_by_id` -/
def projectGetClientById (l : List Client)
    (id : Uuid) : Option Client := l.find? (fun c => c.id = id)

/-- `client_dependency_find_circular` with `fuel` levels of recursion. -/
def clientDependencyFindCircular (l : List Client) (orig : Uuid) : (fuel : Nat) → Uuid → Option Bool
  | 0, _ => none
  | n + 1, new =>
    match projectGetClientById l new with
    | none => some false
    | some client =>
      firstTrue
        (fun dep => if orig = dep then some true else clientDependencyFindCircular l orig n dep)
        client.dependencies

/-- The dependencies of the client with an id, if it is in the list. -/
def depsIn (l : List Client) (id : Uuid) : List Uuid :=
  match projectGetClientById l id with
  | none => []
  | some c => c.dependencies

/-- The check is a depth-first search along the dependencies of the listed clients. -/
theorem clientDependencyFindCircular_eq_search (l : List Client) (orig : Uuid) (n : Nat)
    (new : Uuid) : clientDependencyFindCircular l orig n new = search (depsIn l) orig n new := by
  induction n generalizing new with
  | zero => rfl
  | succ n ih =>
      rw [clientDependencyFindCircular, search, depsIn]
      cases projectGetClientById l new with
      | none => rfl
      | some c => simp only [ih]

/-- `client_dependency_add`: the client afterwards. A call chain that is longer than the list visits
a client twice and so never ends. -/
def clientDependencyAdd (l : List Client) (c : Client) (id : Uuid) : Option Client :=
  if id ∈ c.dependencies then some c
  else
    match clientDependencyFindCircular l c.id (l.length + 1) id with
    | none => none
    | some true => some c
    | some false => some { c with dependencies := id :: c.dependencies }

/-- `client_dependency_remove` -/
def clientDependencyRemove (head : List Uuid) (id : Uuid) : List Uuid := head.erase id

/-- `client_dependency_list_sanity_check` -/
def clientDependencyListSanityCheck (l : List Client) (c : Client) : Client :=
  { c with dependencies := c.dependencies.filter (fun d => (projectGetClientById l d).isSome) }

/-- `client_dependency_init_unsatisfied`; the copies are pushed to the front one by one. -/
def clientDependencyInitUnsatisfied (c : Client) : Client :=
  { c with unsatisfiedDeps := c.dependencies.reverse }

end Lash
