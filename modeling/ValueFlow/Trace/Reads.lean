import ValueFlow.Trace.Log

/-!
# Reads

A read of a version is counted at that version. If the version is transparent (unknown, or a
join), the value read may be one that an earlier version holds, so every version it is derived
from is flagged as possibly read, and so on backwards through transparent versions (`noteRead`).

The versions still to flag are kept on a stack. A version flagged before is passed over, because
those behind it were put on the stack when it was flagged. Each step therefore takes from the
weight of the versions not flagged yet or from the stack, and the flagging ends on every table,
also on one whose versions are derived from each other in a circle.
-/

namespace ValueFlow
set_option autoImplicit false

namespace Trace

/-- The versions that a flagged trace passes its flag on to, the last one first. -/
def flagsOn (trace : Trace) : List Version :=
  if trace.origin.isTransparent then trace.origin.previous.reverse else []

/-- The steps that flagging a trace may cost: one for each version it passes the flag on to, and
none if it is flagged already. -/
def flagWeight (trace : Trace) : Nat :=
  if trace.mayBeRead then 0 else trace.flagsOn.length + 1

end Trace

namespace Traces

/-- The steps that flagging all traces may cost. -/
def flagCost (traces : Traces) : Nat := traces.foldr (fun _ trace cost => trace.flagWeight + cost) 0

/-- The entries of a table with one entry renewed are that entry and all others. -/
theorem toList_insert_perm (traces : Traces) (key : TraceKey) (trace : Trace) :
    (traces.insert key trace).toList.Perm ((key, trace) :: (traces.erase key).toList) := by
  have distinct (t : Traces) : t.toList.Nodup :=
    t.distinct_keys_toList.imp fun differ same => differ (by simp [same])
  refine (List.perm_ext_iff_of_nodup (distinct _) ?_).2 fun entry => ?_
  · exact List.nodup_cons.2
      ⟨by simp [Std.ExtTreeMap.mem_toList_iff_getElem?_eq_some], distinct _⟩
  · obtain ⟨other, held⟩ := entry
    rw [List.mem_cons, Std.ExtTreeMap.mem_toList_iff_getElem?_eq_some,
      Std.ExtTreeMap.mem_toList_iff_getElem?_eq_some, Std.ExtTreeMap.getElem?_insert,
      Std.ExtTreeMap.getElem?_erase]
    by_cases same : key = other
    · subst same
      simp [eq_comm]
    · simp [same, Ne.symm same]

theorem flagCost_insert (traces : Traces) (key : TraceKey) (trace : Trace) :
    flagCost (traces.insert key trace) = trace.flagWeight + flagCost (traces.erase key) := by
  simp only [flagCost, Std.ExtTreeMap.foldr_eq_foldr_toList]
  refine Eq.trans ((toList_insert_perm traces key trace).foldr_eq' ?_ 0) List.foldr_cons
  exact fun _ _ _ _ _ => Nat.add_left_comm ..

/-- Flagging a trace pays for what it passes the flag on to. -/
theorem flagCost_flag {traces : Traces} {key : TraceKey} {trace : Trace}
    (found : traces[key]? = some trace) (fresh : trace.mayBeRead = false) :
    flagCost (traces.insert key { trace with mayBeRead := true }) + trace.flagsOn.length <
      flagCost traces := by
  have before : traces.insert key trace = traces := by
    apply Std.ExtTreeMap.ext_getElem?
    intro other
    rw [Std.ExtTreeMap.getElem?_insert]
    by_cases same : key = other
    · subst same
      simp [found]
    · simp [same]
  have old := flagCost_insert traces key trace
  rw [before] at old
  rw [old, flagCost_insert]
  simp [Trace.flagWeight, fresh]
  omega

/-- Flags the versions of a variable on the stack, and whatever they pass the flag on to. -/
def flagFrom (var : VarId) : List Version → TracesM Unit
  | [], traces => .ok () traces
  | version :: rest, traces =>
    match _ : traces[(⟨var, version⟩ : TraceKey)]? with
    | none => .error (.missingTrace ⟨var, version⟩) traces
    | some trace =>
      if _ : trace.mayBeRead then
        flagFrom var rest traces
      else
        flagFrom var (trace.flagsOn ++ rest)
          (traces.insert ⟨var, version⟩ { trace with mayBeRead := true })
termination_by stack traces => flagCost traces + stack.length
decreasing_by
  · simp
  · have := flagCost_flag ‹_› (Bool.eq_false_iff.2 ‹_›)
    simp only [List.length_append, List.length_cons]
    omega

/-- Counts a read of a version, and flags the versions whose value it may see. -/
def noteRead (key : TraceKey) : TracesM Unit := do
  let trace ← find key
  modify (·.insert key { trace with reads := trace.reads + 1 })
  flagFrom key.var trace.flagsOn

end Traces

end ValueFlow
