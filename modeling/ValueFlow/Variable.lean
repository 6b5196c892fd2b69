/-!
# Variables and their versions

The variable table of a compilation unit. A variable's storage class is fixed when it is
registered and decides what may be assumed of it before any write. Each variable counts the
versions handed out for it; the counter lives as long as the table, so no two passes over one
unit are given the same version of a variable. Counters have no upper bound here: a unit is assumed
to need fewer than 2^32 versions of a variable.
-/

namespace ValueFlow
set_option autoImplicit false

/-- The position of a variable in its table. -/
abbrev VarId := Nat

/-- A numbered state of one variable's value. -/
abbrev Version := Nat

/-- The state of a variable on entry; allocated versions start above it. -/
abbrev Version.entry : Version := 0

/-- Where a variable lives. -/
inductive Storage where
  /-- Bound by the call. -/
  | parameter
  /-- A local slot of a function, unbound on entry. -/
  | localSlot
  /-- A name resolved at run time: the local slot, or else the fallback. -/
  | maybeLocal (fallback : Option VarId)
  /-- A global of the module, which code elsewhere may rebind at any call. -/
  | global
  /-- A slot that the compiler introduced. -/
  | temporary
deriving DecidableEq, Repr

/-- The variable read in place of an unbound local, if the storage class names one. -/
def Storage.fallback? : Storage → Option VarId
  | .maybeLocal fallback => fallback
  | _ => none

/-- A registered variable; `captured` says that a nested closure shares it. -/
structure Variable where
  name : String
  storage : Storage
  captured : Bool
  lastVersion : Version
deriving DecidableEq, Repr

/-- The variable is a global of the module. -/
def Variable.isGlobal (slot : Variable) : Bool := slot.storage == .global

/-- The variables of a compilation unit, numbered in order of registration. -/
structure Variables where
  entries : Array Variable
deriving DecidableEq, Repr

namespace Variables

/-- The table with no variable. -/
def empty : Variables := ⟨#[]⟩

/-- How many variables are registered, which is also the next id. -/
def size (vars : Variables) : Nat := vars.entries.size

/-- The variable registered under an id. -/
def get? (vars : Variables) (var : VarId) : Option Variable := vars.entries[var]?

/-- Adds a variable that no closure captures and that has no version yet; its id is the size
before. -/
def register (vars : Variables) (name : String) (storage : Storage) : Variables :=
  ⟨vars.entries.push ⟨name, storage, false, .entry⟩⟩

/-- Notes that a nested closure captures the variable; `none` if it is not registered. -/
def capture? (vars : Variables) (var : VarId) : Option Variables :=
  if var < vars.size then some ⟨vars.entries.modify var ({ · with captured := true })⟩ else none

/-- The variable's name, with a stand-in for an id that is not registered. -/
def nameOf (vars : Variables) (var : VarId) : String :=
  match vars.get? var with
  | some slot => slot.name
  | none => "<unknown>"

/-- Hands out the variable's next version; `none` if it is not registered. -/
def allocate? (vars : Variables) (var : VarId) : Option (Version × Variables) :=
  (vars.get? var).map fun slot =>
    (slot.lastVersion + 1,
      ⟨vars.entries.modify var ({ · with lastVersion := slot.lastVersion + 1 })⟩)

theorem get?_register (vars : Variables) (name : String) (storage : Storage) (var : VarId) :
    (vars.register name storage).get? var =
      if var = vars.size then some ⟨name, storage, false, .entry⟩ else vars.get? var := by
  exact Array.getElem?_push

/-- Allocation raises one counter by one and changes nothing else. -/
theorem get?_of_allocate? {vars after : Variables} {var : VarId} {version : Version}
    (h : vars.allocate? var = some (version, after)) (other : VarId) :
    after.get? other =
      if other = var then (vars.get? var).map ({ · with lastVersion := version })
      else vars.get? other := by
  simp only [allocate?, Option.map_eq_some_iff, Prod.mk.injEq] at h
  obtain ⟨slot, found, rfl, rfl⟩ := h
  have here : vars.entries[var]? = some slot := found
  by_cases same : var = other
  · subst same
    simp [get?, Array.getElem?_modify, here]
  · simp [get?, Array.getElem?_modify, same, Ne.symm same]

end Variables

end ValueFlow
