import Mathlib.Algebra.BigOperators.Group.Finset.Basic
import ValueFlow.Passes
import ValueFlow.Proofs.Normal.Statement

/-!
# What is noted in what is left of a body

Behind the walk of a body the versions that are noted at the nodes of what is left and the log of
traces tell the same (`Walk.LogAgrees`): whatever was recorded or counted along the walk is noted at
a node that was kept, and whatever is noted at a node that was kept was recorded or counted. Only
the reads of a fallback are noted nowhere, and they are as many as the reads that name it.
-/

namespace ValueFlow
set_option autoImplicit false

namespace Arena

/-- What is noted at a node that reads or writes a variable. -/
def nodeNote? (arena : Arena) (id : NodeId) : Option NodeNote :=
  match arena.node? id with
  | some (.stmt (.assign target _ version)) => some (id, target, some true, version)
  | some (.stmt (.delete target _ version)) => some (id, target, some false, version)
  | some (.expr (.read var version)) => some (id, var, none, version)
  | _ => none

/-- The variable that is read at a node, with the version that is noted there. -/
def seen? (arena : Arena) (id : NodeId) : Option (VarId × Option Version) :=
  match arena.expr? id with
  | some (.read var version) => some (var, version)
  | _ => none

variable {arena : Arena} {id : NodeId} {place : Place} {code : Code} {target var : VarId}
  {version : Option Version}

theorem node?_of_stmt? {stmt : Stmt} (found : arena.stmt? id = some stmt) :
    arena.node? id = some (.stmt stmt) := by
  unfold stmt? at found
  split at found
  · rename_i here
    rw [here, Option.some.inj found]
  · cases found

theorem node?_of_expr? {expr : Expr} (found : arena.expr? id = some expr) :
    arena.node? id = some (.expr expr) := by
  unfold expr? at found
  split at found
  · rename_i here
    rw [here, Option.some.inj found]
  · cases found

theorem nodeNote?_of_stmt? {stmt : Stmt} (found : arena.stmt? id = some stmt) : arena.nodeNote? id =
    match stmt with
    | .assign target _ version => some (id, target, some true, version)
    | .delete target _ version => some (id, target, some false, version)
    | _ => none := by
  unfold nodeNote?
  rw [node?_of_stmt? found]
  cases stmt <;> rfl

theorem nodeNote?_of_expr? {expr : Expr} (found : arena.expr? id = some expr) : arena.nodeNote? id =
    match expr with
    | .read var version => some (id, var, none, version)
    | _ => none := by
  unfold nodeNote?
  rw [node?_of_expr? found]
  cases expr <;> rfl

theorem nodeNote?_read? (arena : Arena) (id : NodeId) :
    (arena.nodeNote? id).bind NodeNote.read? = arena.seen? id := by
  unfold nodeNote? seen? expr?
  cases arena.node? id with
  | none => rfl
  | some node =>
    cases node with
    | stmt stmt => cases stmt <;> rfl
    | expr expr => cases expr <;> rfl

/-- An assignment of which a note tells stands at its node. -/
theorem assign_of_nodeNote? {other : NodeId}
    (noted : arena.nodeNote? other = some (id, target, some true, version)) :
    other = id ∧ ∃ value, arena.stmt? id = some (.assign target value version) := by
  unfold nodeNote? at noted
  split at noted <;> cases noted
  rename_i here
  exact ⟨rfl, _, by rw [stmt?_eq_bind, here]; rfl⟩

/-- The notes of a tree without holes are those at its nodes. -/
theorem Shows.notes_eq (shows_ : arena.Shows place code) (normal : code.IsNormal) :
    code.notes = code.ids.filterMap arena.nodeNote? := by
  induction shows_ with
  | hole => exact normal.elim
  | nil | absent => rfl
  | present _ ih => exact ih normal
  | cons _ _ first second =>
    rw [Code.notes, Code.ids, List.filterMap_append, first normal.2.2.1, second normal.2.2.2]
  | literal found | read found | builtin found =>
    simp [Code.notes, Code.ids, nodeNote?_of_expr? found]
  | delete found | release found | brk found | cont found =>
    simp [Code.notes, Code.ids, nodeNote?_of_stmt? found]
  | call found _ _ first second =>
    simp [Code.notes, Code.ids, nodeNote?_of_expr? found, first normal.1, second normal.2]
  | eval found _ ih => simp [Code.notes, Code.ids, nodeNote?_of_expr? found, ih normal]
  | assign found _ ih | ret found _ ih =>
    simp [Code.notes, Code.ids, nodeNote?_of_stmt? found, ih normal]
  | block found _ ih | effect found _ ih | loop found _ ih =>
    simp [Code.notes, Code.ids, nodeNote?_of_stmt? found, ih normal.2]
  | branch found _ _ _ first second third =>
    obtain ⟨-, -, normalCond, normalYes, normalNo⟩ := normal
    simp [Code.notes, Code.ids, nodeNote?_of_stmt? found, first normalCond,
      second normalYes, third normalNo]

end Arena

namespace Traces

variable {traces : Traces} {keys : List TraceKey}

theorem mem_ofVariable {var : VarId} {entry : TraceKey × Trace} :
    entry ∈ traces.ofVariable var ↔ traces[entry.1]? = some entry.2 ∧ entry.1.var = var := by
  unfold ofVariable
  rw [List.mem_filter, beq_iff_eq, Std.ExtTreeMap.mem_toList_iff_getElem?_eq_some]

theorem nodup_ofVariable (traces : Traces) (var : VarId) :
    ((traces.ofVariable var).map (·.1)).Nodup := by
  refine List.pairwise_map.2
    (List.Pairwise.filter _ (traces.distinct_keys_toList.imp fun differ same => differ ?_))
  rw [same]
  exact Std.ReflOrd.compare_self

/-- The reads of a variable that are counted at its versions are all that were counted of it. -/
theorem sum_reads (told : ∀ key, traces.readsAt key = keys.count key) (var : VarId) :
    ((traces.ofVariable var).map (·.2.reads)).sum = (keys.map (·.var)).count var := by
  have each : (traces.ofVariable var).map (·.2.reads) = ((traces.ofVariable var).map (·.1)).map
      fun key => (keys.filter (·.var == var)).count key := by
    rw [List.map_map]
    refine List.map_congr_left fun entry mem => ?_
    obtain ⟨found, same⟩ := mem_ofVariable.1 mem
    rw [Function.comp_apply, List.count_filter (by simp [same]), ← told]
    simp [readsAt, found]
  have among : ∀ key ∈ (keys.filter (·.var == var) : Multiset TraceKey),
      key ∈ ((traces.ofVariable var).map (·.1)).toFinset := by
    intro key mem
    obtain ⟨counted, same⟩ := List.mem_filter.1 (Multiset.mem_coe.1 mem)
    have positive : 0 < traces.readsAt key := told key ▸ List.count_pos_iff.2 counted
    cases found : traces[key]? with
    | none => simp [readsAt, found] at positive
    | some trace =>
      exact List.mem_toFinset.2
        (List.mem_map.2 ⟨(key, trace), mem_ofVariable.2 ⟨found, by simpa using same⟩, rfl⟩)
  rw [each, ← List.sum_toFinset _ (traces.nodup_ofVariable var), List.count, List.countP_map,
    List.countP_eq_length_filter]
  have total := Multiset.sum_count_eq_card among
  simp only [Multiset.coe_count, Multiset.coe_card] at total
  exact total

end Traces

/-- The notes at the nodes and the log of traces tell the same. -/
structure Walk.LogAgrees (walk : Walk) (nodes : List NodeId) : Prop where
  /-- An assignment bears the version that it has made. -/
  assigned : ∀ id ∈ nodes, ∀ target value version, walk.arena.stmt? id = some (.assign target value version) →
    ∃ number previous, version = some number ∧ walk.analysis.traces.origin? ⟨target, number⟩ = some (.assigned id previous)
  /-- Whatever an assignment has made, it bears. -/
  assigns : ∀ key id previous, walk.analysis.traces.origin? key = some (.assigned id previous) →
    id ∈ nodes ∧ ∃ value, walk.arena.stmt? id = some (.assign key.var value (some key.version))
  /-- A delete bears a version at which its target was unbound. -/
  deleted : ∀ id ∈ nodes, ∀ target tolerant version, walk.arena.stmt? id = some (.delete target tolerant version) →
    ∃ number previous, version = some number ∧ walk.analysis.traces.origin? ⟨target, number⟩ = some (.unbound (some previous))
  /-- No two deletes bear the same version. -/
  apart : ∀ id ∈ nodes, ∀ other ∈ nodes, ∀ target tolerant alsoTolerant version,
    walk.arena.stmt? id = some (.delete target tolerant version) → walk.arena.stmt? other = some (.delete target alsoTolerant version) → id = other
  /-- A read bears a version that is recorded. -/
  read : ∀ id ∈ nodes, ∀ var version, walk.arena.expr? id = some (.read var version) →
    ∃ number, version = some number ∧ (⟨var, number⟩ : TraceKey) ∈ walk.analysis.traces
  /-- As many reads are counted at a version as bear it, if its variable is no fallback. -/
  counted : ∀ key, (∀ other, walk.analysis.vars.fallback? other ≠ some key.var) →
    walk.analysis.traces.readsAt key = (nodes.filterMap walk.arena.seen?).count (key.var, some key.version)
  /-- As many reads of a variable are counted in all as there are reads of it, and of variables
  whose fallback it is. -/
  summed : ∀ var, ((walk.analysis.traces.ofVariable var).map (·.2.reads)).sum = ((nodes.filterMap walk.arena.seen?).map (·.1)).count var +
    ((nodes.filterMap walk.arena.seen?).filterMap (walk.analysis.vars.fallback? ·.1)).count var

namespace Analysis.Annotates

variable {before after : Analysis} {notes : List NodeNote}

/-- Two notes of deletes that bear the same version are one. -/
theorem deleted_unique (annotates : before.Annotates notes after) {note other : NodeNote}
    (mem : note ∈ notes) (memOther : other ∈ notes) (key : TraceKey)
    (bears : note.deleted? = some key) (alsoBears : other.deleted? = some key) : note = other := by
  by_contra differ
  have symmetric : Std.Symm fun first second : NodeNote =>
      ∀ seen, first.deleted? = some seen → ∀ again, second.deleted? = some again → seen ≠ again :=
    ⟨fun _ _ told seen bears again also same => told again also seen bears same.symm⟩
  have differing := List.pairwise_filterMap.1 annotates.distinct
  exact differing.forall mem memOther differ key bears key alsoBears rfl

variable (annotates : before.Annotates notes after) (empty : before.traces = ∅)
include annotates empty

/-- The assignments that are in a log that started empty are those noted. -/
theorem assigns_iff (node : NodeId) (key : TraceKey) :
    after.traces.Assigns node key ↔ (node, key.var, some true, some key.version) ∈ notes := by
  have nothing : ¬ before.traces.Assigns node key := by
    rintro ⟨_, known⟩
    rw [empty] at known
    exact Std.ExtTreeMap.not_mem_empty (Traces.mem_of_origin? known)
  rw [annotates.assigns, or_iff_right nothing]

/-- The reads that are counted in a log that started empty are those noted, and those of the
fallbacks that they name. -/
theorem counts :
    ∃ own others : List TraceKey, (∀ key, after.traces.readsAt key = (own ++ others).count key) ∧
    (own.map fun key => (key.var, some key.version)).Perm (notes.filterMap NodeNote.read?) ∧
    (others.map (·.var)).Perm
      ((notes.filterMap NodeNote.read?).filterMap fun seen => after.vars.fallback? seen.1) := by
  obtain ⟨own, others, tallies, ofReads, ofFallbacks⟩ := annotates.reads
  rw [← annotates.appends.vars.fallback?] at ofFallbacks
  refine ⟨own, others, fun key => ?_, ofReads, ofFallbacks⟩
  have none_ : before.traces.readsAt key = 0 := by simp [Traces.readsAt, empty]
  rw [tallies key, none_, Nat.zero_add]

/-- The version that is noted at a read is recorded. -/
theorem mem_of_read {var : VarId} {version : Version}
    (mem : (var, some version) ∈ notes.filterMap NodeNote.read?) :
    (⟨var, version⟩ : TraceKey) ∈ after.traces := by
  obtain ⟨own, others, counts, ofReads, -⟩ := annotates.counts empty
  obtain ⟨key, memKey, same⟩ := List.mem_map.1 (ofReads.mem_iff.2 mem)
  obtain ⟨rfl, versions⟩ := Prod.mk.inj same
  obtain rfl := Option.some.inj versions
  have positive : 0 < after.traces.readsAt key :=
    counts key ▸ List.count_pos_iff.2 (List.mem_append_left _ memKey)
  by_contra absent
  simp [Traces.readsAt, Std.ExtTreeMap.getElem?_eq_none absent] at positive

/-- At a version of a variable that is no fallback as many reads are counted as there are notes of
it. -/
theorem readsAt_eq (key : TraceKey)
    (noFallback : ∀ other, after.vars.fallback? other ≠ some key.var) :
    after.traces.readsAt key = (notes.filterMap NodeNote.read?).count
      (key.var, some key.version) := by
  obtain ⟨own, others, counts, ofReads, ofFallbacks⟩ := annotates.counts empty
  have free : key ∉ others := by
    intro mem
    obtain ⟨read, -, names⟩ :=
      List.mem_filterMap.1 (ofFallbacks.mem_iff.1 (List.mem_map.2 ⟨key, mem, rfl⟩))
    exact noFallback read.1 names
  have injective : Function.Injective fun key : TraceKey => (key.var, some key.version) := by
    rintro ⟨var, version⟩ ⟨also, again⟩ same
    obtain ⟨rfl, versions⟩ := Prod.mk.inj same
    exact congrArg _ (Option.some.inj versions)
  rw [counts, List.count_append, List.count_eq_zero_of_not_mem free, Nat.add_zero,
    ← ofReads.count_eq]
  exact (List.count_map_of_injective own _ injective key).symm

/-- As many reads of a variable are counted in all as are noted of it, and of the variables whose
fallback it is. -/
theorem sum_reads_eq (var : VarId) : ((after.traces.ofVariable var).map (·.2.reads)).sum =
    ((notes.filterMap NodeNote.read?).map (·.1)).count var +
      ((notes.filterMap NodeNote.read?).filterMap (after.vars.fallback? ·.1)).count var := by
  obtain ⟨own, others, counts, ofReads, ofFallbacks⟩ := annotates.counts empty
  have vars : (own.map (·.var)).Perm ((notes.filterMap NodeNote.read?).map (·.1)) := by
    have mapped := ofReads.map (·.1)
    rwa [List.map_map] at mapped
  rw [Traces.sum_reads counts, List.map_append, List.count_append, vars.count_eq,
    ofFallbacks.count_eq]

end Analysis.Annotates

/-- What notes tell of a state that started with an empty log, they tell of the nodes at which they
stand. -/
theorem Analysis.Annotates.logAgrees {before : Analysis} {walk : Walk} {code : Code}
    (annotates : before.Annotates code.notes walk.analysis) (empty : before.traces = ∅)
    (told : code.notes = code.ids.filterMap walk.arena.nodeNote?) : walk.LogAgrees code.ids := by
  have noted {id : NodeId} {note : NodeNote} (mem : id ∈ code.ids)
      (stands : walk.arena.nodeNote? id = some note) : note ∈ code.notes :=
    told ▸ List.mem_filterMap.2 ⟨id, mem, stands⟩
  have seen : code.notes.filterMap NodeNote.read? = code.ids.filterMap walk.arena.seen? := by
    rw [told, List.filterMap_filterMap]
    exact congrArg (List.filterMap · code.ids) (funext walk.arena.nodeNote?_read?)
  exact {
    assigned := by
      intro id mem target value version found
      have held := noted mem (Arena.nodeNote?_of_stmt? found)
      obtain ⟨number, rfl⟩ := Option.isSome_iff_exists.1 (annotates.versions _ held)
      obtain ⟨previous, known⟩ := (annotates.assigns_iff empty id ⟨target, number⟩).2 held
      exact ⟨number, previous, rfl, known⟩
    assigns := by
      intro key id previous known
      have held := (annotates.assigns_iff empty id key).1 ⟨previous, known⟩
      obtain ⟨other, mem, stands⟩ := List.mem_filterMap.1 (told ▸ held)
      obtain ⟨rfl, here⟩ := Arena.assign_of_nodeNote? stands
      exact ⟨mem, here⟩
    deleted := by
      intro id mem target tolerant version found
      have held := noted mem (Arena.nodeNote?_of_stmt? found)
      obtain ⟨number, rfl⟩ := Option.isSome_iff_exists.1 (annotates.versions _ held)
      obtain ⟨-, previous, known⟩ :=
        annotates.unbinds ⟨target, number⟩ (List.mem_filterMap.2 ⟨_, held, rfl⟩)
      exact ⟨number, previous, rfl, known⟩
    apart := by
      intro id mem other memOther target tolerant alsoTolerant version found also
      have held := noted mem (Arena.nodeNote?_of_stmt? found)
      have heldAlso := noted memOther (Arena.nodeNote?_of_stmt? also)
      obtain ⟨number, rfl⟩ := Option.isSome_iff_exists.1 (annotates.versions _ held)
      exact congrArg Prod.fst (annotates.deleted_unique held heldAlso ⟨target, number⟩ rfl rfl)
    read := by
      intro id mem var version found
      have held := noted mem (Arena.nodeNote?_of_expr? found)
      obtain ⟨number, rfl⟩ := Option.isSome_iff_exists.1 (annotates.versions _ held)
      exact ⟨number, rfl, annotates.mem_of_read empty (List.mem_filterMap.2 ⟨_, held, rfl⟩)⟩
    counted := fun key noFallback => seen ▸ annotates.readsAt_eq empty key noFallback
    summed := fun var => seen ▸ annotates.sum_reads_eq empty var }

namespace Walk

variable {walk : Walk} {arena : Arena} {body : NodeId} {left : Option NodeId} {after : Walk}
  {code newCode : Code}

/-- The walk of a body has left a normal tree, and the notes in it tell what the log has gained. -/
structure LeavesNoted (before : Walk) (left : Option NodeId) (after : Walk) (newCode : Code) : Prop where
  shows_ : after.arena.Shows (.maybe .stmt left) newCode
  nodup : newCode.ids.Nodup
  normal : newCode.IsNormal
  noted : before.analysis.Annotates newCode.notes after.analysis

theorem LeavesNoted.spared (leaves : walk.LeavesNoted left after newCode) {last : Walk}
    (spared : after.Spared last) :
    walk.LeavesNoted left last newCode :=
  ⟨spared.arena ▸ leaves.shows_, leaves.nodup, leaves.normal, leaves.noted.quiet_after spared.notes⟩

theorem leavesNoted_walkStmt (shows_ : walk.arena.Shows (.one .stmt body) code)
    (nodup : code.ids.Nodup) :
    Gives (walkStmt body) walk fun left after => ∃ newCode,
      walk.LeavesNoted left after newCode := by
  unfold walkStmt
  rw [gives_arenaHere_bind]
  refine Gives.mono (reshapes_walkStmtWithin _ shows_ nodup) ?_
  rintro left after ⟨newCode, reshaped, -⟩
  exact ⟨newCode, reshaped.shows_, reshaped.changes.nodup, reshaped.normal, reshaped.noted⟩

/-- The exits of a function are only looked up. -/
theorem Spares.functionExits (node : Option NodeId) (returns : List Scope) :
    Spares (functionExits node returns) := by
  intro walk
  unfold Walk.functionExits
  rw [gives_arenaHere_bind]
  split
  · exact .pure (.refl _)
  · rw [gives_scopeHere_bind]
    exact .pure (.refl _)

theorem leavesNoted_walkFunction (shows_ : walk.arena.Shows (.one .stmt body) code)
    (nodup : code.ids.Nodup) :
    Gives (walkFunction body) walk fun left after => ∃ newCode,
      walk.LeavesNoted left after newCode := by
  have caught : Gives (catching .byFunction do
      let node ← walkStmt body
      pure (node, ← Analysis.takeExits .byFunction .ret)) walk fun answer after => ∃ newCode,
        walk.LeavesNoted answer.1 after newCode := by
    refine ends_catching.2 (Gives.bind (leavesNoted_walkStmt shows_ nodup) ?_)
    rintro left last ⟨newCode, leaves⟩
    refine Gives.bind (gives_takeExits rfl) ?_
    rintro returns taken ⟨-, -, arena, behind⟩
    have traces := congrArg Analysis.traces (behind walk.analysis.exits)
    have vars := congrArg Analysis.vars (behind walk.analysis.exits)
    have inside : walk.analysis.Annotates [] (walk.analysis.inside .byFunction) := .of_log rfl rfl
    refine .pure ⟨newCode, ?_, leaves.nodup, leaves.normal,
      inside.after_quiet (leaves.noted.quiet_after (.of_log traces vars))⟩
    exact (arena ▸ leaves.shows_ : taken.arena.Shows _ _)
  unfold walkFunction
  refine .bind caught ?_
  rintro ⟨left, returns⟩ last ⟨newCode, leaves⟩
  refine .bind (Spares.functionExits left returns last) ?_
  rintro exits looked spared
  have ended := leaves.spared spared
  cases exits with
  | nil => exact .pure ⟨newCode, ended⟩
  | cons first rest =>
    refine .bind (Spares.lift (annotates_quiet.join _) looked) ?_
    rintro _ after joined
    exact .pure ⟨newCode, ended.spared joined⟩

theorem leavesNoted_walkBody (kind : BodyKind) (shows_ : walk.arena.Shows (.one .stmt body) code)
    (nodup : code.ids.Nodup) :
    Gives (walkBody kind body) walk fun left after => ∃ newCode,
      walk.LeavesNoted left after newCode := by
  cases kind with
  | moduleBody => exact leavesNoted_walkStmt shows_ nodup
  | functionBody => exact leavesNoted_walkFunction shows_ nodup

/-- The notes in what is left of a body match the log. Assignments and the versions that assignments
have made correspond one to one; every delete bears a version of its own, at which its target was
unbound behind an earlier one; every read bears a version that is recorded; and the reads that are
counted are the reads that are left, with those of the fallbacks that they name. -/
theorem notes_match_log (kind : BodyKind) (vars : Variables) (options : Options) (tree : arena.IsTree body code)
    (walked : walkBody kind body ⟨.forBody kind vars options, arena⟩ = .ok left after) :
    ∃ newCode, after.arena.Shows (.maybe .stmt left) newCode ∧ newCode.ids.Nodup ∧ after.LogAgrees newCode.ids := by
  obtain ⟨newCode, leaves⟩ := (leavesNoted_walkBody kind tree.shows_ tree.nodup).of_ok walked
  exact ⟨newCode, leaves.shows_, leaves.nodup, leaves.noted.logAgrees rfl (leaves.shows_.notes_eq leaves.normal)⟩

/-- A body with reads in an arm that is never taken and behind a return:
`x = m; del x; if True { x = g } else { x }; return x; m`. -/
def annotatedBody : Arena :=
  ⟨#[⟨.expr (.read 1 none), ⟨0, 1⟩⟩, ⟨.stmt (.assign 2 0 none), ⟨1, 2⟩⟩, ⟨.stmt (.delete 2 false none), ⟨2, 3⟩⟩, ⟨.expr (.read 0 none), ⟨3, 4⟩⟩,
    ⟨.stmt (.assign 2 3 none), ⟨4, 5⟩⟩, ⟨.expr (.builtin "True"), ⟨5, 6⟩⟩, ⟨.expr (.read 2 none), ⟨6, 7⟩⟩, ⟨.stmt (.effect 6), ⟨7, 8⟩⟩,
    ⟨.stmt (.branch 5 (some 4) (some 7)), ⟨8, 9⟩⟩, ⟨.expr (.read 2 none), ⟨9, 10⟩⟩, ⟨.stmt (.ret (some 9)), ⟨10, 11⟩⟩,
    ⟨.expr (.read 1 none), ⟨11, 12⟩⟩, ⟨.stmt (.effect 11), ⟨12, 13⟩⟩, ⟨.stmt (.block [1, 2, 8, 10, 12]), ⟨13, 14⟩⟩]⟩

/-- Its variables; a read of `m` names `g` as its fallback. -/
def annotatedVars : Variables :=
  ⟨#[⟨"g", .global, false, .entry⟩, ⟨"m", .maybeLocal (some 0), false, .entry⟩, ⟨"x", .parameter, false, .entry⟩]⟩

theorem isTree_annotatedBody :
    annotatedBody.IsTree 13
      (.block 13 (.cons (.assign 1 2 (.read 0 1 none) none) (.cons (.delete 2 2 false none)
    (.cons (.branch 8 (.builtin 5 "True") (.assign 4 2 (.read 3 0 none) none)
      (.effect 7 (.read 6 2 none)))
    (.cons (.ret 10 (.read 9 2 none)) (.cons (.effect 12 (.read 11 1 none)) .nil)))))) where
  shows_ := .block rfl
    (.cons (.assign rfl (.read rfl))
      (.cons (.delete rfl)
        (.cons (.branch rfl (.builtin rfl) (.present (.assign rfl (.read rfl)))
            (.present (.effect rfl (.read rfl))))
          (.cons (.ret rfl (.present (.read rfl))) (.cons (.effect rfl (.read rfl)) .nil)))))
  nodup := by decide

/-- The read of `g` that is left and the read of `m` are both counted at the entry version of
`g`. -/
theorem annotated_body_matches : ∃ after,
    walkBody .functionBody 13 ⟨.forBody .functionBody annotatedVars {}, annotatedBody⟩ = .ok (some 13) after ∧
      after.arena.block? 13 = some [1, 2, 4, 10] ∧ after.analysis.traces.readsAt ⟨0, .entry⟩ = 2 ∧
      ∃ newCode, after.arena.Shows (.maybe .stmt (some 13)) newCode ∧ newCode.ids.Nodup ∧ after.LogAgrees newCode.ids := by
  have ends : endsWith (walkBody .functionBody 13) ⟨.forBody .functionBody annotatedVars {}, annotatedBody⟩ (fun left after =>
      left == some 13 && after.arena.block? 13 == some [1, 2, 4, 10] && after.analysis.traces.readsAt ⟨0, .entry⟩ == 2) = true := by
    decide +kernel
  obtain ⟨left, after, walked, told⟩ := exists_of_endsWith ends
  simp only [Bool.and_eq_true, beq_iff_eq] at told
  obtain ⟨⟨rfl, kept⟩, counted⟩ := told
  exact ⟨after, walked, kept, counted, notes_match_log .functionBody annotatedVars {} isTree_annotatedBody walked⟩

end Walk

end ValueFlow
