import StreamLang.Proofs.OrderedMap
import StreamLang.Registry

/-!
Registries and the registrations that they were built from.

Registering a module changes what is found under its type and name and nothing else, and it moves no
module in the list (`Registry.Replaces`, `Registry.replaces_register`). So of all registrations of a
type and a name a registry keeps the place of the first and the coordinates of the last
(`Registry.Records`), and the calls that put no new module into the list are those that gave a
warning (`Registry.registerAll_history`).
-/

namespace StreamLang

/-- What a module is known by. -/
def Registration.key (m : Registration) : ModuleType × String := (m.type, m.name)

/-- Whether a warning is about a module that was registered again. -/
def Warning.isDuplicate : Warning → Bool
  | .duplicate .. => true
  | .unresolved .. | .unlisted .. => false

namespace Registry

variable {r after : Registry} {m : Registration} {history : List Registration}

/-! ## Looking up and listing -/

theorem find?_eq_some_iff {name : String} {type : ModuleType} :
    r.find? name type = some m ↔ m ∈ r.all ∧ m.name = name ∧ m.type = type := by
  constructor
  · intro found
    obtain ⟨coordinates, known, rfl⟩ := Option.map_eq_some_iff.mp found
    exact ⟨List.mem_map.mpr ⟨_, OrderedMap.mem_entries_of_get? known, rfl⟩, rfl, rfl⟩
  · rintro ⟨listed, rfl, rfl⟩
    obtain ⟨e, entry, rfl⟩ := List.mem_map.mp listed
    have known : r.modules.get? e.1 = some e.2 :=
      OrderedMap.lookup_of_mem r.modules.nodup_keys entry
    simp only [find?, known, Option.map_some]

/-- A registry lists exactly the modules that it finds. -/
theorem mem_all_iff : m ∈ r.all ↔ r.find? m.name m.type = some m := by
  simp [find?_eq_some_iff]

theorem keys_all (r : Registry) : r.all.map Registration.key = r.modules.keys := by
  rw [all, List.map_map]
  rfl

theorem nodup_keys_all (r : Registry) : (r.all.map Registration.key).Nodup := by
  rw [keys_all]
  exact r.modules.nodup_keys

theorem size_eq_length_all (r : Registry) : r.size = r.all.length := by
  rw [all, List.length_map]
  rfl

/-! ## One registration -/

/-- What a registration makes of a registry. The module is found with its new coordinates, and it
takes the place that its type and name have in the list, or else comes last. What was found before
is replaced, and nothing else changes. -/
structure Replaces (r : Registry) (m : Registration) (replaced : Option Coordinates)
    (after : Registry) : Prop where
  replaced : replaced = (r.find? m.name m.type).map Registration.coordinates
  found : after.find? m.name m.type = some m
  others : ∀ name type, (type, name) ≠ m.key → after.find? name type = r.find? name type
  listed : after.all =
    if m.key ∈ r.all.map Registration.key then r.all.map fun x => if x.key = m.key then m else x
    else r.all ++ [m]

theorem replaces_register (r : Registry) (m : Registration) :
    r.Replaces m (r.register m).value.2 (r.register m).value.1 := by
  constructor
  case replaced =>
    change r.modules.get? m.key = Option.map _ (Option.map _ (r.modules.get? m.key))
    rw [Option.map_map]
    exact Option.map_id'.symm
  case found =>
    change Option.map _ ((r.modules.insert m.key m.coordinates).get? m.key) = _
    rw [OrderedMap.get?_insert, if_pos rfl]
    rfl
  case others =>
    intro name type apart
    change Option.map _ ((r.modules.insert m.key m.coordinates).get? (type, name)) = _
    rw [OrderedMap.get?_insert, if_neg apart]
    rfl
  case listed =>
    change List.map _ (OrderedMap.insertEntry m.key m.coordinates r.modules.entries) = _
    rw [keys_all]
    split
    · next known =>
        rw [OrderedMap.insertEntry_of_mem r.modules.nodup_keys known, all, List.map_map,
          List.map_map]
        refine List.map_congr_left fun e _ => ?_
        change _ = if e.1 = m.key then _ else _
        simp only [Function.comp_apply]
        split <;> rfl
    · next fresh =>
        rw [OrderedMap.insertEntry_of_not_mem fresh, List.map_append]
        rfl

/-- A registration keeps the pairs that are listed, and lists its own if it is new. -/
theorem Replaces.keys {replaced : Option Coordinates} (replaces : r.Replaces m replaced after) :
    after.all.map Registration.key =
      if m.key ∈ r.all.map Registration.key then r.all.map Registration.key
      else r.all.map Registration.key ++ [m.key] := by
  rw [replaces.listed]
  split
  · rw [List.map_map]
    refine List.map_congr_left fun x _ => ?_
    rw [Function.comp_apply]
    split
    · next same => exact same.symm
    · rfl
  · rw [List.map_append, List.map_singleton]

/-- A registration gives one warning if its type and name are listed, and none else. -/
theorem countP_warnings_register (r : Registry) (m : Registration) :
    (r.register m).warnings.countP Warning.isDuplicate =
      if m.key ∈ r.all.map Registration.key then 1 else 0 := by
  rw [keys_all]
  by_cases known : m.key ∈ r.modules.keys
  · obtain ⟨coordinates, before⟩ :=
      Option.isSome_iff_exists.mp (OrderedMap.contains_iff_mem_keys.mpr known)
    rw [if_pos known]
    rw [Registration.key] at before
    simp only [register, before]
    rfl
  · have before : r.modules.get? m.key = none := by
      rw [← OrderedMap.contains_iff_mem_keys, OrderedMap.contains] at known
      simpa using known
    rw [if_neg known]
    rw [Registration.key] at before
    simp only [register, before]
    rfl

/-- A registration either lists one more module or gives one warning. -/
theorem size_register (r : Registry) (m : Registration) :
    (r.register m).value.1.size + (r.register m).warnings.countP Warning.isDuplicate =
      r.size + 1 := by
  have keys := congrArg List.length (r.replaces_register m).keys
  rw [List.length_map] at keys
  rw [countP_warnings_register, size_eq_length_all, size_eq_length_all, keys]
  split
  · rw [List.length_map]
  · rw [List.length_append, List.length_map, List.length_singleton]

/-! ## A run of registrations -/

theorem registerAll_concat (r : Registry) (history : List Registration) (m : Registration) :
    r.registerAll (history ++ [m]) =
      ⟨((r.registerAll history).value.register m).value.1,
        (r.registerAll history).warnings ++
          ((r.registerAll history).value.register m).warnings⟩ := by
  induction history generalizing r with
  | nil => simp [registerAll, bind, Logged.andThen, pure, Logged.quiet]
  | cons n history ih =>
      have rest := ih (r.register n).value.1
      rw [List.cons_append, registerAll, registerAll]
      simp only [bind, Logged.andThen] at rest ⊢
      rw [rest, List.append_assoc]

/-- What a registry keeps of the registrations that led to it: each type and name in the place of
the first registration, found with what the last one gave. -/
structure Records (r : Registry) (history : List Registration) : Prop where
  find? : ∀ name type,
    r.find? name type = (history.filter fun m => m.key = (type, name)).getLast?
  keys : r.all.map Registration.key = (history.map Registration.key).eraseDups

theorem Records.register {replaced : Option Coordinates} (records : r.Records history)
    (replaces : r.Replaces m replaced after) : after.Records (history ++ [m]) := by
  constructor
  · intro name type
    by_cases same : (type, name) = m.key
    · obtain ⟨rfl, rfl⟩ := Prod.mk.inj same
      rw [replaces.found, List.filter_append, List.filter_singleton]
      simp [same]
    · rw [replaces.others name type same, records.find?, List.filter_append,
        List.filter_singleton]
      simp [Ne.symm same]
  · rw [replaces.keys, records.keys, List.map_append, List.map_singleton, List.eraseDups_append]
    generalize history.map Registration.key = keys
    by_cases known : m.key ∈ keys
    · simp [known, List.removeAll]
    · simp [known, List.removeAll, List.eraseDups_cons]

theorem records_registerAll (history : List Registration) :
    (empty.registerAll history).value.Records history := by
  induction history using List.reverseRecOn with
  | nil => exact ⟨fun _ _ => rfl, rfl⟩
  | append_singleton history m ih =>
      rw [registerAll_concat]
      exact ih.register (replaces_register _ m)

theorem warnings_registerAll (history : List Registration) :
    (empty.registerAll history).value.size +
      (empty.registerAll history).warnings.countP Warning.isDuplicate = history.length := by
  induction history using List.reverseRecOn with
  | nil => rfl
  | append_singleton history m ih =>
      have step := size_register (empty.registerAll history).value m
      rw [registerAll_concat, List.countP_append, List.length_append, List.length_singleton]
      dsimp only
      omega

/-- What a registry holds after any registrations, and what one more changes. Under each type and
name it finds the last registration, it lists the registered pairs once, in the order of their first
registrations, and its list and its size agree with what it finds. As many warnings were given as
there were calls that listed no new module. One more registration returns the coordinates that it
replaces, and leaves all other modules and all places in the list as they are. -/
theorem registerAll_history (history : List Registration) (m : Registration) :
    let run := empty.registerAll history
    let step := run.value.register m
    run.value.Records history ∧
    ((run.value.all.map Registration.key).Nodup ∧
      (∀ x, x ∈ run.value.all ↔ run.value.find? x.name x.type = some x) ∧
      run.value.size = run.value.all.length) ∧
    run.value.size + run.warnings.countP Warning.isDuplicate = history.length ∧
    run.value.Replaces m step.value.2 step.value.1 ∧
    empty.registerAll (history ++ [m]) = ⟨step.value.1, run.warnings ++ step.warnings⟩ :=
  ⟨records_registerAll history,
    ⟨nodup_keys_all _, fun _ => mem_all_iff, size_eq_length_all _⟩,
    warnings_registerAll history, replaces_register _ m, registerAll_concat empty history m⟩

end Registry

end StreamLang
