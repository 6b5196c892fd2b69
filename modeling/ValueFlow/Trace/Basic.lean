import Std.Data.ExtTreeMap
import ValueFlow.Syntax

/-!
# Traces

A trace is what is known of one version of one variable: where its value comes from, and how the
value has been used so far. Its origin names earlier versions of the same variable and is never
changed; only the notes of use grow. Reads are counted without an upper bound: fewer than 2^32 reads
of one version are assumed.

Traces are kept in a table ordered by variable and then by version (`TraceKey`). Two tables with
the same entries are equal, whatever order they were filled in.
-/

namespace ValueFlow
set_option autoImplicit false

/-- A variable at one of its versions. -/
structure TraceKey where
  var : VarId
  version : Version
deriving DecidableEq, Repr

/-- Keys are ordered by variable, and those of one variable by version. -/
instance : Ord TraceKey where
  compare a b := (compare a.var b.var).then (compare a.version b.version)

theorem TraceKey.compare_def (a b : TraceKey) :
    compare a b = (compare a.var b.var).then (compare a.version b.version) := rfl

instance : Std.TransOrd TraceKey where
  eq_swap {a b} := by
    simp only [TraceKey.compare_def, Ordering.swap_then]
    rw [← Std.OrientedCmp.eq_swap, ← Std.OrientedCmp.eq_swap]
  isLE_trans {a b c} ab bc := by
    simp only [TraceKey.compare_def, Ordering.isLE_then_iff_and, Nat.isLE_compare,
      Nat.compare_eq_lt] at *
    omega

instance : Std.LawfulEqOrd TraceKey where
  eq_of_compare {a b} same := by
    simp only [TraceKey.compare_def, Ordering.then_eq_eq, Nat.compare_eq_eq] at same
    cases a
    cases b
    simp_all

/-- Where the value of a version comes from. -/
inductive Origin where
  /-- Unbound: on entry, or by a delete after an earlier version. -/
  | unbound (previous : Option Version)
  /-- Bound on entry. -/
  | bound
  /-- Nothing is known: on entry, or after an escape. -/
  | unknown (previous : Option Version)
  /-- Bound by the assignment at a node. -/
  | assigned (node : NodeId) (previous : Version)
  /-- One of several versions, where control paths meet; strictly increasing. -/
  | joined (sources : List Version)
deriving DecidableEq, Repr

namespace Origin

/-- The versions that a version is derived from. -/
def previous : Origin → List Version
  | .unbound previous => previous.toList
  | .bound => []
  | .unknown previous => previous.toList
  | .assigned _ previous => [previous]
  | .joined sources => sources

/-- A read of the version may see a value that an earlier version holds. -/
def isTransparent : Origin → Bool
  | .unknown _ => true
  | .joined _ => true
  | _ => false

/-- The assignment that bound the value. -/
def assignedBy? : Origin → Option NodeId
  | .assigned node _ => some node
  | _ => none

end Origin

/-- What is known of one version of a variable. `reads` counts the reads of exactly this version;
`mayBeRead` says that a read of a later version may see its value. -/
structure Trace where
  origin : Origin
  reads : Nat
  mayBeRead : Bool
  released : Bool
  escaped : Bool
deriving DecidableEq, Repr

/-- A trace of which no use is noted. -/
def Trace.ofOrigin (origin : Origin) : Trace := ⟨origin, 0, false, false, false⟩

/-- The traces of one analysis. -/
abbrev Traces := Std.ExtTreeMap TraceKey Trace

end ValueFlow
