import Mathlib.Data.List.Forall2
import StreamLang.Proofs.FirstOccurrence
import StreamLang.Proofs.Registry.History
import StreamLang.Proofs.Text.Pieces
import StreamLang.Settings

/-!
Registries from settings.

Without its spaces, a key spells a type and a name (`Registration.Names`), and it spells one pair
only. So an entry describes one registration, or it has one fault (`Registration.ofEntry_eq_ok_iff`,
`Registration.ofEntry_eq_error_iff`), and of all entries either each describes a registration or one
is the first that has a fault (`Registry.exists_history_or_fault`). In the first case the settings
give the registry of these registrations, in the second the fault (`Registry.ofContents_outcome`).
-/

namespace StreamLang

namespace Registration

variable {key : String} {k k' : ModuleType × String} {e e' : String × String}
  {m m' : Registration} {x : SettingsError}

/-! ## Keys -/

/-- The key without its spaces. -/
def compact (key : String) : String := String.ofList (key.toList.filter (· ≠ ' '))

/-- A type and a name, written as a key without spaces. -/
def spelling (k : ModuleType × String) : String := k.1.name ++ ":" ++ k.2

/-- What a key stands for: without its spaces it is the name of the type, a colon and the name of the
module, which is not empty. As no type has a colon in its name, this is the first colon. -/
structure Names (key : String) (k : ModuleType × String) : Prop where
  spelled : compact key = spelling k
  some : k.2 ≠ ""

theorem toList_spelling (k : ModuleType × String) :
    (spelling k).toList = k.1.name.toList ++ ':' :: k.2.toList := by
  simp [spelling, String.toList_append]

theorem colon_not_mem_name (type : ModuleType) : ':' ∉ type.name.toList := by
  cases type <;> decide

theorem spelling_injective : Function.Injective spelling := by
  rintro ⟨type, name⟩ ⟨type', name'⟩ same
  have chars := congrArg String.toList same
  rw [toList_spelling, toList_spelling] at chars
  obtain ⟨types, names⟩ :=
    append_cons_inj_of_not_mem (colon_not_mem_name type) (colon_not_mem_name type') chars
  have found := congrArg ModuleType.ofName? (String.toList_inj.mp types)
  rw [ModuleType.ofName?_name, ModuleType.ofName?_name, Option.some_inj] at found
  exact Prod.ext found (String.toList_inj.mp names)

theorem Names.unique (names : Names key k) (names' : Names key k') : k = k' :=
  spelling_injective (names.spelled.symm.trans names'.spelled)

theorem ofKey?_eq_some_iff : ofKey? key = some k ↔ Names key k := by
  constructor
  · intro read
    simp only [ofKey?] at read
    split at read
    · next front name spans =>
        rw [List.span_eq_takeWhile_dropWhile, Prod.mk.injEq] at spans
        have whole : front ++ ':' :: name = key.toList.filter (· ≠ ' ') := by
          rw [← spans.1, ← spans.2, List.takeWhile_append_dropWhile]
        split at read
        · next type found =>
            split at read
            · cases read
            · next some =>
                cases read
                have spelledType : type.name = String.ofList front := by
                  simpa using List.find?_some found
                refine ⟨?_, fun none => some ?_⟩
                · rw [← String.toList_inj, toList_spelling, compact, ← whole]
                  simp [spelledType]
                · simpa using congrArg String.toList none
        · cases read
    · cases read
  · intro names
    have spelled := congrArg String.toList names.spelled
    rw [compact, String.toList_ofList, toList_spelling] at spelled
    have some : ¬ k.2.toList.isEmpty = true := by simpa using names.some
    simp only [ofKey?, spelled, span_append_cons (colon_not_mem_name k.1), String.ofList_toList,
      ModuleType.ofName?_name]
    rw [if_neg some]

/-! ## Entries -/

/-- An entry describes a registration: its key names the module, and its value is read as the
coordinates. -/
structure Describes (e : String × String) (m : Registration) : Prop where
  names : Names e.1 m.key
  read : Coordinates.parse e.2 = .ok m.coordinates

/-- What is wrong with an entry: its key names no module, or else its value is no coordinates. The
error has the key as it stands in the settings. -/
inductive Fault (e : String × String) : SettingsError → Prop
  | key (nameless : ¬ ∃ k, Names e.1 k) : Fault e (.invalidRegistryKey e.1)
  | value {k : ModuleType × String} {cause : CoordinatesError} (names : Names e.1 k)
      (unread : Coordinates.parse e.2 = .error cause) : Fault e (.coordinates e.1 cause)

theorem ofEntry_eq_ok_iff : ofEntry e.1 e.2 = .ok m ↔ Describes e m := by
  constructor
  · intro read
    simp only [ofEntry] at read
    split at read
    · cases read
    · next named =>
        split at read
        · cases read
        · next parsed =>
            cases read
            exact ⟨ofKey?_eq_some_iff.mp named, parsed⟩
  · rintro ⟨names, read⟩
    simp only [ofEntry, ofKey?_eq_some_iff.mpr names, read]
    rfl

theorem ofEntry_eq_error_iff : ofEntry e.1 e.2 = .error x ↔ Fault e x := by
  constructor
  · intro fails
    simp only [ofEntry] at fails
    split at fails
    · next unnamed =>
        cases fails
        refine .key ?_
        intro nameable
        obtain ⟨k, names⟩ := nameable
        rw [ofKey?_eq_some_iff.mpr names] at unnamed
        cases unnamed
    · next named =>
        split at fails
        · next unread =>
            cases fails
            exact .value (ofKey?_eq_some_iff.mp named) unread
        · cases fails
  · rintro (nameless | ⟨names, unread⟩)
    · have unnamed : ofKey? e.1 = none :=
        Option.eq_none_iff_forall_not_mem.mpr
          fun k named => nameless ⟨k, ofKey?_eq_some_iff.mp named⟩
      simp only [ofEntry, unnamed]
    · simp only [ofEntry, ofKey?_eq_some_iff.mpr names, unread]

theorem Describes.unique (described : Describes e m) (described' : Describes e m') : m = m' := by
  have keys := described.names.unique described'.names
  have coordinates := described.read.symm.trans described'.read
  cases m
  cases m'
  cases keys
  cases coordinates
  rfl

/-- Two entries that differ in spaces of their keys only. -/
def Respaced (e e' : String × String) : Prop :=
  compact e.1 = compact e'.1 ∧ e.2 = e'.2

instance (e e' : String × String) : Decidable (Respaced e e') :=
  inferInstanceAs (Decidable (_ ∧ _))

theorem Respaced.describes_iff (respaced : Respaced e e') : Describes e m ↔ Describes e' m := by
  obtain ⟨keys, values⟩ := respaced
  constructor
  · rintro ⟨⟨spelled, some⟩, read⟩
    exact ⟨⟨keys ▸ spelled, some⟩, values ▸ read⟩
  · rintro ⟨⟨spelled, some⟩, read⟩
    exact ⟨⟨keys ▸ spelled, some⟩, values ▸ read⟩

end Registration

namespace Registry

open Registration (Describes Fault Respaced compact spelling spelling_injective)

variable {r : Registry} {entries entries' front : List (String × String)}
  {history : List Registration}

/-! ## A run of entries -/

theorem exists_history_iff :
    (∃ history, List.Forall₂ Describes entries history) ↔ ∀ e ∈ entries, ∃ m, Describes e m := by
  induction entries with
  | nil => simp
  | cons e entries ih =>
      rw [List.forall_mem_cons, ← ih]
      constructor
      · rintro ⟨_, _ | ⟨described, others⟩⟩
        exact ⟨⟨_, described⟩, _, others⟩
      · rintro ⟨⟨m, described⟩, history, others⟩
        exact ⟨m :: history, .cons described others⟩

/-- Entries all describe registrations, or one of them is the first that has a fault. -/
theorem exists_history_or_fault (entries : List (String × String)) :
    (∃ history, List.Forall₂ Describes entries history) ∨
      ∃ before e after x, entries = before ++ e :: after ∧
        (∃ history, List.Forall₂ Describes before history) ∧ Fault e x := by
  induction entries with
  | nil => exact Or.inl ⟨[], .nil⟩
  | cons e entries ih =>
      cases read : Registration.ofEntry e.1 e.2 with
      | error x =>
          exact Or.inr
            ⟨[], e, entries, x, rfl, ⟨[], .nil⟩, Registration.ofEntry_eq_error_iff.mp read⟩
      | ok m =>
          have described := Registration.ofEntry_eq_ok_iff.mp read
          obtain ⟨history, others⟩ | ⟨before, e', after, x, rfl, ⟨history, others⟩, fault⟩ := ih
          · exact Or.inl ⟨m :: history, .cons described others⟩
          · exact Or.inr ⟨e :: before, e', after, x, rfl, ⟨m :: history, .cons described others⟩,
              fault⟩

/-- Described entries are registered one by one before those that come after them. -/
theorem addEntries_append (described : List.Forall₂ Describes front history) (r : Registry)
    (rest : List (String × String)) :
    r.addEntries (front ++ rest) = (do
      let r ← r.registerAll history
      r.addEntries rest) := by
  induction described generalizing r with
  | nil => rfl
  | @cons e m front history first _ ih =>
      rw [List.cons_append, addEntries, Registration.ofEntry_eq_ok_iff.mpr first, registerAll]
      simp only [bind, Logged.andThen] at ih ⊢
      rw [ih, List.append_assoc]

theorem addEntries_of_described (described : List.Forall₂ Describes entries history) :
    empty.addEntries entries =
      ⟨.ok (empty.registerAll history).value, (empty.registerAll history).warnings⟩ := by
  have run := addEntries_append described empty []
  rw [List.append_nil] at run
  rw [run]
  simp [addEntries, bind, Logged.andThen, pure, Logged.quiet]

theorem value_addEntries_of_fault {before after : List (String × String)} {e : String × String}
    {x : SettingsError} (described : List.Forall₂ Describes before history) (fault : Fault e x) :
    (empty.addEntries (before ++ e :: after)).value = .error x := by
  rw [addEntries_append described, Logged.value_bind, addEntries,
    Registration.ofEntry_eq_error_iff.mpr fault]
  rfl

theorem value_addEntries_eq_error_iff {x : SettingsError} :
    (empty.addEntries entries).value = .error x ↔
      ∃ before e after, entries = before ++ e :: after ∧
        (∀ e' ∈ before, ∃ m, Describes e' m) ∧ Fault e x := by
  constructor
  · intro fails
    obtain ⟨history, described⟩ | ⟨before, e, after, x', rfl, ⟨history, described⟩, fault⟩ :=
      exists_history_or_fault entries
    · rw [addEntries_of_described described] at fails
      cases fails
    · rw [value_addEntries_of_fault described fault] at fails
      cases fails
      exact ⟨before, e, after, rfl, exists_history_iff.mp ⟨history, described⟩, fault⟩
  · rintro ⟨before, e, after, rfl, valid, fault⟩
    obtain ⟨history, described⟩ := exists_history_iff.mpr valid
    exact value_addEntries_of_fault described fault

theorem value_addEntries_eq_ok_iff :
    (empty.addEntries entries).value = .ok r ↔
      ∃ history, List.Forall₂ Describes entries history ∧ r = (empty.registerAll history).value := by
  constructor
  · intro built
    obtain ⟨history, described⟩ | ⟨before, e, after, x, rfl, ⟨history, described⟩, fault⟩ :=
      exists_history_or_fault entries
    · rw [addEntries_of_described described] at built
      cases built
      exact ⟨history, described, rfl⟩
    · rw [value_addEntries_of_fault described fault] at built
      cases built
  · rintro ⟨history, described, rfl⟩
    rw [addEntries_of_described described]

/-! ## Keys that are equal but for spaces -/

/-- What a registry has from entries. Its list has the keys without their spaces, each where it
comes first, and a module is found with the coordinates of the last entry whose key spells it. -/
structure Loads (r : Registry) (entries : List (String × String)) : Prop where
  listed : r.all.map (fun m => spelling m.key) = (entries.map fun e => compact e.1).eraseDups
  find?_iff : ∀ m, r.find? m.name m.type = some m ↔
    ∃ e, (entries.filter fun e => compact e.1 = spelling m.key).getLast? = some e ∧ Describes e m

theorem getLast?_eq_some_iff (described : List.Forall₂ Describes entries history)
    {m : Registration} :
    history.getLast? = some m ↔ ∃ e, entries.getLast? = some e ∧ Describes e m := by
  have reversed := List.forall₂_reverse_iff.mpr described
  rw [List.getLast?_eq_head?_reverse, List.getLast?_eq_head?_reverse]
  generalize entries.reverse = back at reversed ⊢
  generalize history.reverse = back' at reversed ⊢
  cases reversed with
  | nil => simp
  | @cons e n _ _ last _ =>
      simp only [List.head?_cons, Option.some.injEq, exists_eq_left']
      constructor
      · rintro rfl
        exact last
      · exact last.unique

theorem loads_of_records (described : List.Forall₂ Describes entries history)
    (records : r.Records history) : r.Loads entries := by
  constructor
  case listed =>
    have keys : (entries.map fun e => compact e.1) =
        (history.map Registration.key).map spelling := by
      rw [List.map_map, ← List.forall₂_eq_eq_eq, List.forall₂_map_left_iff,
        List.forall₂_map_right_iff]
      exact described.imp fun _ _ entry => entry.names.spelled
    rw [keys, eraseDups_map spelling_injective, ← records.keys, List.map_map]
    rfl
  case find?_iff =>
    intro m
    have kept : List.Forall₂ Describes (entries.filter fun e => compact e.1 = spelling m.key)
        (history.filter fun n => n.key = (m.type, m.name)) := by
      refine List.rel_filter (fun e n entry => ?_) described
      dsimp only
      rw [decide_eq_true_iff, decide_eq_true_iff, entry.names.spelled]
      exact spelling_injective.eq_iff
    rw [records.find?, getLast?_eq_some_iff kept]

theorem forall₂_describes_iff (respaced : List.Forall₂ Respaced entries entries') :
    List.Forall₂ Describes entries history ↔ List.Forall₂ Describes entries' history := by
  induction respaced generalizing history with
  | nil => exact Iff.rfl
  | cons first _ ih =>
      cases history with
      | nil => simp
      | cons m history => rw [List.forall₂_cons, List.forall₂_cons, first.describes_iff, ih]

/-! ## Settings -/

/-- What becomes of the modules in settings. They are loaded if every entry describes a registration,
and the registry is then that of the described registrations, one by one: a key has the place of the
first entry that has it but for spaces, and the coordinates of the last. Otherwise the error is the
fault of the first entry that has one, whatever comes after it. Spaces that are put into keys or
taken out of them make no other registry, and settings without a registry get none. -/
theorem ofContents_outcome (contents : OrderedMap String String) :
    let loaded := ofContents contents
    ((∃ r, loaded.value = .ok r) ↔ ∀ e ∈ contents.entries, ∃ m, Describes e m) ∧
    (∀ r, loaded.value = .ok r → ∃ history, List.Forall₂ Describes contents.entries history ∧
      empty.registerAll history = ⟨r, loaded.warnings⟩ ∧ r.Records history ∧
      r.Loads contents.entries) ∧
    (∀ x, loaded.value = .error x ↔
      ∃ before e after, contents.entries = before ++ e :: after ∧
        (∀ e' ∈ before, ∃ m, Describes e' m) ∧ Fault e x) ∧
    ∀ respaced : OrderedMap String String,
      List.Forall₂ Respaced contents.entries respaced.entries →
        ∀ r, loaded.value = .ok r ↔ (ofContents respaced).value = .ok r := by
  refine ⟨?_, fun r built => ?_, fun x => value_addEntries_eq_error_iff, fun respaced same r => ?_⟩
  · rw [← exists_history_iff]
    constructor
    · rintro ⟨r, built⟩
      obtain ⟨history, described, -⟩ := value_addEntries_eq_ok_iff.mp built
      exact ⟨history, described⟩
    · rintro ⟨history, described⟩
      exact ⟨_, value_addEntries_eq_ok_iff.mpr ⟨history, described, rfl⟩⟩
  · obtain ⟨history, described, rfl⟩ := value_addEntries_eq_ok_iff.mp built
    have records := records_registerAll history
    refine ⟨history, described, ?_, records, loads_of_records described records⟩
    rw [ofContents, addEntries_of_described described]
  · simp only [ofContents]
    rw [value_addEntries_eq_ok_iff, value_addEntries_eq_ok_iff]
    simp only [forall₂_describes_iff same]

/-- A key with spaces fixes the place of the module, and the same key without them its coordinates.
Without a colon in its key an entry is at fault for the key, though its value is none either. -/
theorem ofContents_outcome_spacedKeys :
    (∃ r, (ofContents (.ofList [("source : time", "g:a:1"), ("sink:log", "g:b:1"),
        ("source:time", "g:c:2"), ("task: a:b ", "g:d:3")])).value = .ok r ∧
      r.all = [⟨.source, "time", .plain "g" "c" "2"⟩, ⟨.sink, "log", .plain "g" "b" "1"⟩,
        ⟨.task, "a:b", .plain "g" "d" "3"⟩] ∧
      (ofContents (.ofList [(" source:time", "g:a:1"), ("sink :log", "g:b:1"),
        ("source:time ", "g:c:2"), ("task:a:b", "g:d:3")])).value = .ok r) ∧
    (ofContents (.ofList [("sink:log", "g:b:1"), ("time", "none"), ("sink:out", "")])).value =
      .error (.invalidRegistryKey "time") := by
  obtain ⟨-, -, -, respaced⟩ := ofContents_outcome (.ofList [("source : time", "g:a:1"),
    ("sink:log", "g:b:1"), ("source:time", "g:c:2"), ("task: a:b ", "g:d:3")])
  obtain ⟨-, -, failed, -⟩ := ofContents_outcome (.ofList [("sink:log", "g:b:1"),
    ("time", "none"), ("sink:out", "")])
  refine ⟨⟨_, rfl, by decide, ?_⟩, ?_⟩
  · refine (respaced _ ?_ _).mp rfl
    exact .cons (by decide) (.cons (by decide) (.cons (by decide) (.cons (by decide) .nil)))
  · refine (failed _).mpr ⟨[("sink:log", "g:b:1")], ("time", "none"), [("sink:out", "")],
      by decide, ?_, ?_⟩
    · simp only [List.mem_singleton, forall_eq]
      exact ⟨⟨.sink, "log", .plain "g" "b" "1"⟩, ⟨by decide, by decide⟩, by decide⟩
    · refine .key ?_
      intro nameable
      obtain ⟨k, names⟩ := nameable
      have colon : ':' ∈ (compact "time").toList := by
        rw [names.spelled, Registration.toList_spelling]
        simp
      exact absurd colon (by decide)

end Registry

end StreamLang
