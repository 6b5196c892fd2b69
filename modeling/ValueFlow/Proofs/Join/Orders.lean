import ValueFlow.Proofs.Integrity.Join

/-!
# Joins that walk over their maps in any order

A join may collect the versions of its paths in two passes over their maps. The first notes, for
each path and each entry of its map, the version at the variable. The second notes the entry version
at every variable that was met in some path and is missing from another. Neither pass may rely on
the order in which it comes upon the entries of a map (`Orders`): only what was collected is sorted,
by variable and, at each variable, by version.

Whatever the orders, such a join is the join of the paths (`joinInOrder_eq`), and the join of
several paths is the same for any list of them that has the same members (`join_congr`).
-/

namespace ValueFlow
set_option autoImplicit false

/-- The versions met so far at each variable, in the order in which they were met. -/
abbrev Sightings := Std.ExtTreeMap VarId (List Version)

namespace Sightings

/-- Notes a version, unless it was met before. -/
def note (version : Version) (met : List Version) : List Version :=
  if version ∈ met then met else met ++ [version]

/-- The versions met at a variable. -/
def metAt (seen : Sightings) (var : VarId) : List Version := seen[var]?.getD []

/-- The first pass comes upon an entry of some path. -/
def enter (seen : Sightings) (entry : VarId × Version) : Sightings :=
  seen.insert entry.1 (note entry.2 (seen.metAt entry.1))

/-- The second pass comes upon a variable on behalf of a path. -/
def fill (path : Scope) (seen : Sightings) (var : VarId) : Sightings :=
  if var ∈ path.active then seen else seen.modify var (note .entry)

/-- The first pass, given the entries of each path in the order in which they are come upon. -/
def firstPass (entries : List (List (VarId × Version))) : Sightings := entries.flatten.foldl enter ∅

/-- The second pass, given for each path the variables in the order in which they are come upon. -/
def secondPass (seen : Sightings) (visits : List (Scope × List VarId)) : Sightings :=
  visits.foldl (fun seen visit => visit.2.foldl (fill visit.1) seen) seen

variable {seen : Sightings} {var other : VarId} {version : Version} {met : List Version}

theorem mem_note {noted : Version} :
    version ∈ note noted met ↔ version ∈ met ∨ version = noted := by
  unfold note
  split
  · constructor
    · exact .inl
    · rintro (mem | rfl) <;> assumption
  · simp

theorem nodup_note (noted : Version) (nodup : met.Nodup) : (note noted met).Nodup := by
  unfold note
  split
  · exact nodup
  · rename_i absent
    rw [List.nodup_append]
    refine ⟨nodup, List.nodup_cons.2 ⟨List.not_mem_nil, List.nodup_nil⟩, ?_⟩
    intro version mem other memOther same
    obtain rfl := List.mem_singleton.1 memOther
    exact absent (same ▸ mem)

theorem metAt_insert :
    metAt (seen.insert var met) other = if other = var then met else seen.metAt other := by
  unfold metAt
  rw [Std.ExtTreeMap.getElem?_insert]
  by_cases same : var = other
  · simp [same]
  · simp [same, Ne.symm same]

theorem mem_metAt_enter {entry : VarId × Version} :
    version ∈ (seen.enter entry).metAt var ↔ version ∈ seen.metAt var ∨ (var, version) = entry := by
  obtain ⟨other, noted⟩ := entry
  rw [enter, metAt_insert]
  split
  · rename_i same
    subst same
    rw [mem_note]
    simp
  · rename_i apart
    simp [apart]

theorem mem_metAt_fill {path : Scope} :
    version ∈ (seen.fill path other).metAt var ↔
      version ∈ seen.metAt var ∨ version = .entry ∧ var = other ∧ var ∈ seen ∧
        var ∉ path.active := by
  unfold fill
  split
  · rename_i held
    constructor
    · exact .inl
    · rintro (mem | ⟨-, rfl, -, free⟩)
      · exact mem
      · exact absurd held free
  · rename_i free
    unfold metAt
    rw [Std.ExtTreeMap.getElem?_modify]
    by_cases same : other = var
    · subst same
      rw [if_pos (Nat.compare_eq_eq.2 rfl), Std.ExtTreeMap.mem_iff_isSome_getElem?]
      cases seen[other]? with
      | none => simp
      | some met => simp [mem_note, free]
    · simp [same, Ne.symm same]

theorem mem_fill {path : Scope} : var ∈ seen.fill path other ↔ var ∈ seen := by
  unfold fill
  split
  · rfl
  · exact Std.ExtTreeMap.mem_modify

/-- No version is met twice at a variable. -/
def Distinct (seen : Sightings) : Prop := ∀ var, (seen.metAt var).Nodup

theorem Distinct.enter (distinct : seen.Distinct) (entry : VarId × Version) :
    (seen.enter entry).Distinct := by
  intro var
  rw [Sightings.enter, metAt_insert]
  split
  · exact nodup_note _ (distinct _)
  · exact distinct var

theorem Distinct.fill (distinct : seen.Distinct) (path : Scope) (var : VarId) :
    (seen.fill path var).Distinct := by
  intro other
  unfold Sightings.fill
  split
  · exact distinct other
  · have old := distinct other
    unfold metAt at old ⊢
    rw [Std.ExtTreeMap.getElem?_modify]
    split
    · rename_i same
      obtain rfl := Std.LawfulEqCmp.eq_of_compare same
      cases found : seen[var]? with
      | none => simp
      | some met =>
        rw [found] at old
        exact nodup_note _ old
    · exact old

section Passes

variable {entries : List (VarId × Version)} {vars : List VarId} {visits : List (Scope × List VarId)}

theorem mem_metAt_foldl_enter :
    version ∈ metAt (entries.foldl enter seen) var ↔ version ∈ seen.metAt var ∨
      (var, version) ∈ entries := by
  induction entries generalizing seen with
  | nil => simp
  | cons entry rest ih => rw [List.foldl_cons, ih, mem_metAt_enter, List.mem_cons, or_assoc]

theorem mem_foldl_enter :
    var ∈ entries.foldl enter seen ↔ var ∈ seen ∨ ∃ version, (var, version) ∈ entries := by
  induction entries generalizing seen with
  | nil => simp
  | cons entry rest ih =>
    obtain ⟨other, noted⟩ := entry
    rw [List.foldl_cons, ih, enter, Std.ExtTreeMap.mem_insert, Nat.compare_eq_eq]
    constructor
    · rintro ((rfl | mem) | ⟨version, mem⟩)
      · exact .inr ⟨noted, by simp⟩
      · exact .inl mem
      · exact .inr ⟨version, by simp [mem]⟩
    · rintro (mem | ⟨version, mem⟩)
      · exact .inl (.inr mem)
      · rcases List.mem_cons.1 mem with same | later
        · obtain ⟨rfl, -⟩ := Prod.mk.inj same
          exact .inl (.inl rfl)
        · exact .inr ⟨version, later⟩

theorem Distinct.foldl_enter (distinct : seen.Distinct) :
    Distinct (entries.foldl Sightings.enter seen) := by
  induction entries generalizing seen with
  | nil => exact distinct
  | cons entry rest ih => exact ih (distinct.enter entry)

theorem mem_foldl_fill {path : Scope} : var ∈ vars.foldl (fill path) seen ↔ var ∈ seen := by
  induction vars generalizing seen with
  | nil => rfl
  | cons head rest ih => rw [List.foldl_cons, ih, mem_fill]

theorem mem_metAt_foldl_fill {path : Scope} :
    version ∈ metAt (vars.foldl (fill path) seen) var ↔
      version ∈ seen.metAt var ∨ version = .entry ∧ var ∈ vars ∧ var ∈ seen ∧
        var ∉ path.active := by
  induction vars generalizing seen with
  | nil => simp
  | cons head rest ih =>
    rw [List.foldl_cons, ih, mem_metAt_fill, mem_fill, List.mem_cons]
    tauto

theorem Distinct.foldl_fill (distinct : seen.Distinct) (path : Scope) :
    Distinct (vars.foldl (Sightings.fill path) seen) := by
  induction vars generalizing seen with
  | nil => exact distinct
  | cons head rest ih => exact ih (distinct.fill path head)

theorem mem_secondPass : var ∈ seen.secondPass visits ↔ var ∈ seen := by
  induction visits generalizing seen with
  | nil => rfl
  | cons visit rest ih =>
    rw [secondPass, List.foldl_cons]
    exact ih.trans mem_foldl_fill

theorem mem_metAt_secondPass :
    version ∈ (seen.secondPass visits).metAt var ↔
      version ∈ seen.metAt var ∨
        version = .entry ∧ var ∈ seen ∧ ∃ visit ∈ visits, var ∈ visit.2 ∧ var ∉ visit.1.active := by
  induction visits generalizing seen with
  | nil => simp [secondPass]
  | cons visit rest ih =>
    rw [secondPass, List.foldl_cons]
    refine ih.trans ?_
    rw [mem_metAt_foldl_fill, mem_foldl_fill]
    simp only [List.mem_cons, exists_eq_or_imp]
    tauto

theorem Distinct.secondPass (distinct : seen.Distinct) : (seen.secondPass visits).Distinct := by
  induction visits generalizing seen with
  | nil => exact distinct
  | cons visit rest ih =>
    rw [Sightings.secondPass, List.foldl_cons]
    exact ih (distinct.foldl_fill visit.1)

end Passes

end Sightings

/-- The orders in which one join comes upon the entries of its maps: those of each path in the first
pass, the variables that were met, once for each path, in the second, and in the end all that was
collected. -/
structure Orders (paths : List Scope) where
  entries : List (List (VarId × Version))
  vars : List (List VarId)
  collected : List (VarId × List Version)
  entries_list : List.Forall₂ (fun path listing => listing.Perm path.active.toList) paths entries
  vars_list : List.Forall₂ (fun _ listing => listing.Perm (Sightings.firstPass entries).keys) paths vars
  collected_list : collected.Perm (Sightings.secondPass (.firstPass entries) (paths.zip vars)).toList

namespace Orders

variable {paths : List Scope}

/-- Every map may be walked over by increasing ids. -/
instance (paths : List Scope) : Inhabited (Orders paths) where
  default := {
    entries := paths.map (·.active.toList)
    vars := paths.map fun _ => (Sightings.firstPass (paths.map (·.active.toList))).keys
    collected := _
    entries_list := List.forall₂_map_right_iff.2 (List.forall₂_same.2 fun _ _ => .refl _)
    vars_list := List.forall₂_map_right_iff.2 (List.forall₂_same.2 fun _ _ => .refl _)
    collected_list := .refl _ }

/-- All that the two passes collect. -/
def sightings (orders : Orders paths) : Sightings :=
  .secondPass (.firstPass orders.entries) (paths.zip orders.vars)

variable (orders : Orders paths) {var : VarId} {version : Version}

theorem mem_of_listed {entries : List (List (VarId × Version))}
    (listed : List.Forall₂ (fun path listing => listing.Perm path.active.toList) paths entries) :
    (var, version) ∈ entries.flatten ↔ ∃ path ∈ paths, path.active[var]? = some version := by
  induction listed with
  | nil => simp
  | @cons path listing _ _ perm _ ih =>
    rw [List.flatten_cons, List.mem_append, ih, perm.mem_iff,
      Std.ExtTreeMap.mem_toList_iff_getElem?_eq_some]
    simp

theorem mem_entries :
    (var, version) ∈ orders.entries.flatten ↔ ∃ path ∈ paths, path.active[var]? = some version :=
  mem_of_listed orders.entries_list

theorem mem_firstPass : var ∈ Sightings.firstPass orders.entries ↔ var ∈ Scope.varsOf paths := by
  unfold Sightings.firstPass
  rw [Sightings.mem_foldl_enter]
  simp only [Std.ExtTreeMap.not_mem_empty, false_or, mem_entries, Scope.mem_varsOf,
    Scope.mem_activeVars]
  exact ⟨fun ⟨version, path, mem, held⟩ => ⟨path, mem, version, held⟩,
    fun ⟨path, mem, version, held⟩ => ⟨version, path, mem, held⟩⟩

theorem mem_sightings : var ∈ orders.sightings ↔ var ∈ Scope.varsOf paths :=
  Sightings.mem_secondPass.trans orders.mem_firstPass

/-- If every path comes upon a variable, then each does so on behalf of itself. -/
theorem visits_of_listed {keys : List VarId} {vars : List (List VarId)} (known : var ∈ keys)
    (absent : Scope → Prop)
    (listed : List.Forall₂ (fun _ listing => listing.Perm keys) paths vars) :
    (∃ visit ∈ paths.zip vars, var ∈ visit.2 ∧ absent visit.1) ↔ ∃ path ∈ paths, absent path := by
  induction listed with
  | nil => simp
  | @cons path listing _ _ perm _ ih =>
    have here : var ∈ listing := perm.mem_iff.2 known
    rw [List.zip_cons_cons]
    simp only [List.mem_cons, exists_eq_or_imp, here, true_and, ih]

/-- What is collected at a variable are the versions at which the paths hold it. -/
theorem mem_metAt (met : var ∈ Scope.varsOf paths) :
    version ∈ orders.sightings.metAt var ↔ ∃ path ∈ paths, path.versionOf var = version := by
  have first := orders.mem_firstPass.2 met
  unfold sightings
  rw [Sightings.mem_metAt_secondPass, Sightings.firstPass,
    Sightings.mem_metAt_foldl_enter, mem_entries]
  change (_ ∨ _ ∧ var ∈ Sightings.firstPass orders.entries ∧ _) ↔ _
  rw [visits_of_listed (Std.ExtTreeMap.mem_keys.2 first) (var ∉ ·.active) orders.vars_list]
  constructor
  · rintro ((impossible | ⟨path, mem, held⟩) | ⟨rfl, -, path, mem, free⟩)
    · simp [Sightings.metAt] at impossible
    · exact ⟨path, mem, Scope.versionOf_of_active held⟩
    · exact ⟨path, mem, Scope.versionOf_of_not_mem free⟩
  · rintro ⟨path, mem, rfl⟩
    cases held : path.active[var]? with
    | some version => exact .inl (.inr ⟨path, mem, by rw [Scope.versionOf_of_active held, held]⟩)
    | none =>
      have free : var ∉ path.active :=
        fun active => by simp [Std.ExtTreeMap.mem_iff_isSome_getElem?, held] at active
      exact .inr ⟨Scope.versionOf_of_not_mem free, first, path, mem, free⟩

theorem distinct : orders.sightings.Distinct := by
  have nothing : Sightings.Distinct ∅ := fun var => by simp [Sightings.metAt]
  exact nothing.foldl_enter.secondPass

theorem pairwise_mergeSort_by {α : Type} (key : α → Nat) (list : List α) :
    (list.mergeSort fun first second => decide (key first ≤ key second)).Pairwise
      (key · ≤ key ·) := by
  have sorted : (list.mergeSort fun first second => decide (key first ≤ key second)).Pairwise
      fun first second =>
      decide (key first ≤ key second) = true := List.pairwise_mergeSort
    (fun _ _ _ => by simp only [decide_eq_true_eq]; omega)
      (fun _ _ => by simp only [Bool.or_eq_true, decide_eq_true_eq]; omega) list
  simpa only [decide_eq_true_eq] using sorted

/-- Sorted, what is collected at a variable is the list of versions that a join goes by. -/
theorem sorted_metAt (met : var ∈ Scope.varsOf paths) :
    (orders.sightings.metAt var).mergeSort = Scope.versionsOf paths var := by
  have nodup : (Scope.versionsOf paths var).Nodup := (Scope.versionsOf_sorted paths var).imp
    fun below => Nat.ne_of_lt below
  have members : (orders.sightings.metAt var).Perm (Scope.versionsOf paths var) := by
    rw [List.perm_ext_iff_of_nodup (orders.distinct var) nodup]
    intro version
    rw [orders.mem_metAt met, Scope.mem_versionsOf]
  have sorted : (Scope.versionsOf paths var).Pairwise (· ≤ ·) :=
    (Scope.versionsOf_sorted paths var).imp Nat.le_of_lt
  refine List.Perm.eq_of_pairwise (fun first second _ _ => Nat.le_antisymm)
    (pairwise_mergeSort_by id _) sorted ?_
  exact (List.mergeSort_perm _ _).trans members

/-- Sorted by variable, the collected entries come in the order in which a join goes over its
variables. -/
theorem sorted_collected :
    orders.collected.mergeSort (fun first second => decide (first.1 ≤ second.1)) =
      orders.sightings.toList := by
  have perm :=
    (List.mergeSort_perm orders.collected fun first second => decide (first.1 ≤ second.1)).trans
      orders.collected_list
  refine List.Perm.eq_of_pairwise ?_ (pairwise_mergeSort_by Prod.fst orders.collected)
    (Std.ExtTreeMap.ordered_keys_toList.imp fun below => Nat.le_of_lt (Nat.compare_eq_lt.1 below))
    perm
  rintro ⟨var, first⟩ ⟨other, second⟩ memFirst memSecond below above
  obtain rfl : var = other := Nat.le_antisymm below above
  have heldFirst := Std.ExtTreeMap.mem_toList_iff_getElem?_eq_some.1 (perm.mem_iff.1 memFirst)
  have heldSecond := Std.ExtTreeMap.mem_toList_iff_getElem?_eq_some.1 memSecond
  rw [Option.some.inj (heldFirst.symm.trans heldSecond)]

/-- The variables that were collected are those that a join goes over. -/
theorem keys_sightings : orders.sightings.keys = Scope.varsOf paths := by
  have sortedVars : (Scope.varsOf paths).Pairwise (· < ·) := by
    unfold Scope.varsOf
    exact Std.ExtTreeSet.ordered_toList.imp fun below => Nat.compare_eq_lt.1 below
  have sortedKeys : orders.sightings.keys.Pairwise (· < ·) :=
    Std.ExtTreeMap.ordered_keys.imp fun below => Nat.compare_eq_lt.1 below
  refine List.Perm.eq_of_pairwise
    (fun first second _ _ below above => absurd (Nat.lt_trans below above) (Nat.lt_irrefl _))
    sortedKeys sortedVars ?_
  rw [List.perm_ext_iff_of_nodup (sortedKeys.imp fun below => Nat.ne_of_lt below)
    (Scope.nodup_varsOf paths)]
  intro var
  rw [Std.ExtTreeMap.mem_keys, orders.mem_sightings]

end Orders

namespace Site

/-- Joins several paths by two passes over their maps, in the orders given. -/
def joinInOrder {paths : List Scope} (orders : Orders paths) : SiteM Unit := do
  modify fun site => { site with scope := .fresh site.scope.label }
  (orders.collected.mergeSort fun first second => decide (first.1 ≤ second.1)).forM fun entry =>
    joinVersions entry.1 entry.2.mergeSort

theorem forM_map_eq {α β : Type} {list : List α} {image : α → β} {act : α → SiteM Unit}
    {actImage : β → SiteM Unit} (each : ∀ value ∈ list, act value = actImage (image value)) :
    (list.map image).forM actImage = list.forM act := by
  induction list with
  | nil => rfl
  | cons head rest ih =>
    change (actImage (image head) >>= fun _ => (rest.map image).forM actImage) =
      (act head >>= fun _ => rest.forM act)
    rw [each head (by simp), ih fun value mem => each value (by simp [mem])]

theorem join_of_two {paths : List Scope} (two : 2 ≤ paths.length) :
    join paths = (do
      modify fun site => { site with scope := .fresh site.scope.label }
      (Scope.varsOf paths).forM fun var => joinVersions var (Scope.versionsOf paths var)) := by
  match paths, two with
  | _ :: _ :: _, _ => rfl

/-- In whichever orders a join walks over its maps, it joins its paths. -/
theorem joinInOrder_eq {paths : List Scope} (two : 2 ≤ paths.length) (orders : Orders paths) :
    joinInOrder orders = join paths := by
  have entries : ∀ entry ∈ orders.sightings.toList,
      entry.2.mergeSort = Scope.versionsOf paths entry.1 := by
    rintro ⟨var, met⟩ mem
    have held := Std.ExtTreeMap.mem_toList_iff_getElem?_eq_some.1 mem
    have here : var ∈ Scope.varsOf paths := by
      rw [← orders.mem_sightings, Std.ExtTreeMap.mem_iff_isSome_getElem?, held]
      rfl
    rw [← orders.sorted_metAt here, Sightings.metAt, held]
    rfl
  rw [join_of_two two, joinInOrder, orders.sorted_collected, ← orders.keys_sightings,
    ← Std.ExtTreeMap.map_fst_toList_eq_keys, forM_map_eq fun entry mem =>
    congrArg (joinVersions entry.1) (entries entry mem)]

/-- The join of several paths depends on which scopes are among them, not on their order or
number. -/
theorem join_congr {paths others : List Scope} (two : 2 ≤ paths.length)
    (twoOthers : 2 ≤ others.length) (same : ∀ path, path ∈ others ↔ path ∈ paths) :
    join others = join paths := by
  have vars : Scope.varsOf others = Scope.varsOf paths := by
    unfold Scope.varsOf
    congr 1
    apply Std.ExtTreeSet.ext_mem
    intro var
    simp [same]
  have versions (var : VarId) : Scope.versionsOf others var = Scope.versionsOf paths var := by
    unfold Scope.versionsOf
    congr 1
    apply Std.ExtTreeSet.ext_mem
    intro version
    simp [same]
  rw [join_of_two two, join_of_two twoOthers, vars]
  simp only [versions]

end Site

end ValueFlow
