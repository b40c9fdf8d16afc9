import StreamLang.Proofs.Completion.Agreement
import StreamLang.Proofs.Completion.Completeness
import StreamLang.Proofs.Completion.Validity

/-!
The names that are proposed and the modules that they stand for.

A name can be registered under several types, and what it stands for depends on where it is written:
`Context.findModule` tries the types that are plausible there, one after the other. The
registrations that are usable at a position come in the same order, so the first one of a name is
the one that is found (`find?_registrationsAt`). Since the first proposal of each text is kept, a
list of module names has each name once, and explains it by the module that it stands for
(`exists_finds`).
-/

namespace StreamLang

/-! ## Catalogs -/

/-- Whether a catalog lists the modules that it finds and no others. -/
def Catalog.Coherent (c : Catalog) : Prop :=
  ∀ name type r, c.find? name type = some r ↔ r ∈ c.all ∧ r.name = name ∧ r.type = type

theorem Catalog.Coherent.faithful {c : Catalog} (coherent : c.Coherent) : c.Faithful :=
  fun name type r found => (coherent name type r).mp found

/-- Registries list what they find. -/
theorem Registry.coherent_catalog (r : Registry) : r.catalog.Coherent :=
  fun _ _ _ => find?_eq_some_iff

/-! ## The first registration of a name -/

namespace Context

variable {ctx : Context} {position : Position} {name : String}

section Coherent

variable (coherent : ctx.collaborators.catalog.Coherent)
include coherent

/-- Among the registrations of one type a name is found once. -/
theorem find?_registrationsOf (type : ModuleType) :
    (ctx.collaborators.catalog.all.filter fun r => r.type == type).find?
      (fun r => r.name == name) = ctx.collaborators.catalog.find? name type := by
  apply Option.ext
  intro r
  rw [coherent]
  constructor
  · intro first
    have listed := List.mem_filter.mp (List.mem_of_find?_eq_some first)
    exact ⟨listed.1, by simpa using List.find?_some first, by simpa using listed.2⟩
  · rintro ⟨listed, rfl, rfl⟩
    have some : (List.find? (fun r' => r'.name == r.name)
        (ctx.collaborators.catalog.all.filter fun r' => r'.type == r.type)).isSome = true := by
      rw [List.find?_isSome]
      exact ⟨r, List.mem_filter.mpr ⟨listed, beq_self_eq_true _⟩, beq_self_eq_true _⟩
    obtain ⟨r', first⟩ := Option.isSome_iff_exists.mp some
    have listed' := List.mem_filter.mp (List.mem_of_find?_eq_some first)
    -- Both have the name and the type, and so they are what is found.
    have found := (coherent r.name r.type r).mpr ⟨listed, rfl, rfl⟩
    have found' := (coherent r.name r.type r').mpr
      ⟨listed'.1, by simpa using List.find?_some first, by simpa using listed'.2⟩
    rw [found] at found'
    rw [first, found']

/-- The first registration of a name among those usable at a position is the module that the name
stands for there. -/
theorem find?_registrationsAt :
    (ctx.registrationsAt position).find? (fun r => r.name == name) =
      ctx.findModule name position := by
  rw [registrationsAt, List.find?_flatMap, findModule]
  simp only [find?_registrationsOf coherent]

theorem find?_filter_registrationsAt (wanted : String → Bool) :
    ((ctx.registrationsAt position).filter fun r => wanted r.name).find?
      (fun r => r.name == name) =
        if wanted name then ctx.findModule name position else none := by
  rw [List.find?_filter]
  by_cases isWanted : wanted name = true
  · have same : ∀ r : Registration,
        decide (wanted r.name = true ∧ (r.name == name) = true) = (r.name == name) := by
      intro r
      by_cases named : r.name = name
      · simp [named, isWanted]
      · simp [named]
    simp only [same, find?_registrationsAt coherent, isWanted, if_true]
  · rw [if_neg isWanted, List.find?_eq_none]
    intro r _
    by_cases named : r.name = name
    · simp [named, isWanted]
    · simp [named]

end Coherent

/-- Modules, one for each wanted name that stands for a module at a position: the module that it
stands for. -/
structure Finds (ctx : Context) (position : Position) (wanted : String → Bool)
    (modules : List Registration) : Prop where
  usable : modules.Sublist (ctx.registrationsAt position)
  names : (modules.map Registration.name).Nodup
  mem_iff : ∀ name r, r ∈ modules ∧ r.name = name ↔
    wanted name = true ∧ ctx.findModule name position = some r

/-- What is kept of the proposals of module names is made for the modules that the names stand
for. -/
theorem exists_finds (coherent : ctx.collaborators.catalog.Coherent)
    (make : Registration → Proposal) {before : String}
    (text : ∀ r, (make r).text = before ++ r.name) (position : Position)
    (wanted : String → Bool) :
    ∃ modules, ctx.Finds position wanted modules ∧
      Proposal.keepFirst [] (((ctx.registrationsAt position).filter fun r => wanted r.name).map
        make) = modules.map make := by
  obtain ⟨modules, among, kept, first⟩ := Proposal.exists_keepFirst_firsts make
    ((ctx.registrationsAt position).filter fun r => wanted r.name) []
  refine ⟨modules, ⟨among.trans List.filter_sublist, ?_, ?_⟩, kept⟩
  · -- No text is kept twice, and the texts are the names after the same beginning.
    have distinct : ((Proposal.keepFirst [] (((ctx.registrationsAt position).filter fun r =>
        wanted r.name).map make)).map Proposal.text).Nodup := by
      rw [Proposal.texts_keepFirst_nil]
      exact nodup_eraseDups _
    have texts : (modules.map make).map Proposal.text =
        (modules.map Registration.name).map (before ++ ·) := by
      rw [List.map_map, List.map_map]
      exact List.map_congr_left fun r _ => text r
    rw [kept, texts] at distinct
    exact List.Pairwise.of_map (before ++ ·) (fun _ _ apart same => apart (same ▸ rfl)) distinct
  · intro name r
    have sameText : ∀ r r' : Registration,
        ((make r').text == (make r).text) = (r'.name == r.name) := by
      intro r r'
      rw [text, text, Bool.eq_iff_iff, beq_iff_eq, beq_iff_eq, String.append_right_inj]
    rw [first]
    simp only [sameText, find?_filter_registrationsAt coherent, List.not_mem_nil, not_false_eq_true,
      true_and, Option.ite_none_right_eq_some]
    constructor
    · rintro ⟨found, rfl⟩
      exact found
    · rintro ⟨isWanted, found⟩
      obtain ⟨-, rfl⟩ := mem_registrationsAt_of_findModule coherent.faithful found
      exact ⟨⟨isWanted, found⟩, rfl⟩

end Context

/-! ## Lists of module names -/

section Names

variable {q : Request} {e : ParseFailure} {t : Topology} {last : Stage}

/-- Where the name of a module is asked for, any name makes a stage that stands at the position that
is awaited. -/
theorem exists_parse_of_awaited (small : q.text.utf8ByteSize ≤ Span.limit)
    (fails : Topology.parse q.text = .error e) (atEnd : e.atEnd = true)
    (expects : e.expectation = .moduleName) {name : String} (isName : isName name.toList = true) :
    ∃ t, Topology.parse (q.text ++ Recovery.separator q.text ++ name) = .ok t ∧
      t.last?.map Stage.name = some name ∧
      t.lastPosition = Recovery.awaitedPosition q.text e := by
  obtain ⟨-, -, d, label, -, -, -, -, position, parsed⟩ :=
    parse_of_moduleName small fails atEnd expects isName
  refine ⟨_, parsed, by simp [Topology.last?], ?_⟩
  rw [lastPosition_concat, position]
  simp only [List.reverse_eq_nil_iff]

/-- Where the name of a module is asked for, the names of all modules are proposed that are found
there. -/
theorem exists_finds_of_awaited (coherent : q.context.collaborators.catalog.Coherent)
    (fails : Topology.parse q.text = .error e) (atEnd : e.atEnd = true)
    (expects : e.expectation = .moduleName) :
    ∃ modules, q.context.Finds (Recovery.awaitedPosition q.text e) (fun _ => true) modules ∧
      proposalsFor q.context q.text q.detail =
        modules.map (q.moduleName (q.text ++ Recovery.separator q.text) .addition) := by
  obtain ⟨modules, finds, kept⟩ := Context.exists_finds coherent
    (q.moduleName (q.text ++ Recovery.separator q.text) .addition) (fun _ => rfl)
    (Recovery.awaitedPosition q.text e) fun _ => true
  refine ⟨modules, finds, ?_⟩
  rw [List.filter_true] at kept
  rw [proposalsFor_of_moduleName fails atEnd expects, Recovery.ofModuleName, kept]

section Parsed

variable (coherent : q.context.collaborators.catalog.Coherent)
variable (parsed : Topology.parse q.text = .ok t) (unbound : t.sink = none)
variable (isLast : t.last? = some last)

include coherent parsed unbound isLast in
/-- After a module with output the names of all modules are proposed that are found after it. -/
theorem exists_finds_of_passesOn (named : q.context.collaborators.catalog.Named)
    (passesOn : last.PassesOn q.context t.lastPosition) :
    ∃ modules, q.context.Finds .downstream (fun _ => true) modules ∧
      (proposalsFor q.context q.text q.detail).filter (Proposal.isPipe q.base) =
        modules.map (q.moduleName (q.base ++ " | ") .addition) := by
  obtain ⟨modules, finds, kept⟩ := Context.exists_finds coherent
    (q.moduleName (q.base ++ " | ") .addition) (fun _ => rfl) .downstream fun _ => true
  rw [List.filter_true] at kept
  refine ⟨modules, finds, ?_⟩
  rw [filter_isPipe_proposalsFor named parsed unbound isLast,
    Expansion.ofPipe_of_passesOn passesOn, kept]

include coherent parsed unbound isLast in
/-- For a name at the end of a text the names of all modules are proposed that go on from it and are
found in its place. -/
theorem exists_finds_of_unfinished {before : String} (empty : last.parameters.isEmpty = true)
    (split : q.text = before ++ last.name) :
    ∃ modules, q.context.Finds t.lastPosition
        (fun name => Text.startsWith name last.name && name != last.name) modules ∧
      (proposalsFor q.context q.text q.detail).filter (fun p => p.kind == .expanding) =
        modules.map (q.moduleName before .expanding) := by
  obtain ⟨modules, finds, kept⟩ := Context.exists_finds coherent
    (q.moduleName before .expanding) (fun _ => rfl) t.lastPosition
    fun name => Text.startsWith name last.name && name != last.name
  refine ⟨modules, finds, ?_⟩
  have found : Text.beforeSuffix? q.text last.name = some before := by
    rw [split]
    exact Text.beforeSuffix?_append before last.name
  rw [filter_expanding_proposalsFor parsed unbound isLast, ← kept]
  simp only [Expansion.ofUnfinishedName, empty, found]
  rfl

include parsed unbound isLast in
theorem filter_expanding_eq_nil (finished : last.parameters.isEmpty = true →
    ∀ before, q.text ≠ before ++ last.name) :
    (proposalsFor q.context q.text q.detail).filter (fun p => p.kind == .expanding) = [] := by
  have nothing : Expansion.ofUnfinishedName q t last = [] := by
    apply List.eq_nil_iff_forall_not_mem.mpr
    intro p member
    obtain ⟨empty, before, split, -⟩ := Expansion.mem_ofUnfinishedName member
    exact finished empty before split
  rw [filter_expanding_proposalsFor parsed unbound isLast, nothing]
  rfl

end Parsed

/-- A list of module names agrees with what the names stand for. Each list has just the names for
which a module is found at some position, each of them once, and explains it by that module. Where
the name of a module is asked for, the position is the one at which any name written there stands.
After a module with output it is the one after another module. For a name at the end of the text it
is that of the last module, and the names are those that go on from it. -/
theorem module_names_found (q : Request) (coherent : q.context.collaborators.catalog.Coherent)
    (named : q.context.collaborators.catalog.Named) :
    (∀ e, Topology.parse q.text = .error e → e.atEnd = true → e.expectation = .moduleName →
      (∃ modules, q.context.Finds (Recovery.awaitedPosition q.text e) (fun _ => true) modules ∧
        proposalsFor q.context q.text q.detail =
          modules.map (q.moduleName (q.text ++ Recovery.separator q.text) .addition)) ∧
      (q.text.utf8ByteSize ≤ Span.limit → ∀ name : String, isName name.toList = true →
        ∃ t, Topology.parse (q.text ++ Recovery.separator q.text ++ name) = .ok t ∧
          t.last?.map Stage.name = some name ∧
          t.lastPosition = Recovery.awaitedPosition q.text e)) ∧
    ∀ t last, Topology.parse q.text = .ok t → t.sink = none → t.last? = some last →
      (last.PassesOn q.context t.lastPosition →
        ∃ modules, q.context.Finds .downstream (fun _ => true) modules ∧
          (proposalsFor q.context q.text q.detail).filter (Proposal.isPipe q.base) =
            modules.map (q.moduleName (q.base ++ " | ") .addition)) ∧
      (¬ last.PassesOn q.context t.lastPosition →
        (proposalsFor q.context q.text q.detail).filter (Proposal.isPipe q.base) = []) ∧
      (∀ before, last.parameters.isEmpty = true → q.text = before ++ last.name →
        ∃ modules, q.context.Finds t.lastPosition
            (fun name => Text.startsWith name last.name && name != last.name) modules ∧
          (proposalsFor q.context q.text q.detail).filter (fun p => p.kind == .expanding) =
            modules.map (q.moduleName before .expanding)) ∧
      ((last.parameters.isEmpty = true → ∀ before, q.text ≠ before ++ last.name) →
        (proposalsFor q.context q.text q.detail).filter (fun p => p.kind == .expanding) = []) := by
  refine ⟨fun e fails atEnd expects => ⟨?_, fun small name isName => ?_⟩,
    fun t last parsed unbound isLast => ⟨?_, fun blocked => ?_, fun before empty split => ?_, ?_⟩⟩
  · exact exists_finds_of_awaited coherent fails atEnd expects
  · exact exists_parse_of_awaited small fails atEnd expects isName
  · exact exists_finds_of_passesOn coherent parsed unbound isLast named
  · rw [filter_isPipe_proposalsFor named parsed unbound isLast,
      Expansion.ofPipe_of_not_passesOn blocked]
    rfl
  · exact exists_finds_of_unfinished coherent parsed unbound isLast empty split
  · exact filter_expanding_eq_nil parsed unbound isLast

/-- Two names that are registered twice, and an order of types that repeats one and leaves one
out. -/
def homonymContext : Context where
  collaborators := {
    catalog := Registry.catalog ⟨.ofList [((.source, "log"), .plain "org" "in" "1"),
      ((.processor, "log"), .plain "org" "log" "1"), ((.sink, "log"), .plain "org" "out" "1"),
      ((.task, "logger"), .plain "org" "task" "1"), ((.sink, "logger"), .plain "org" "all" "1")]⟩
    resolve := fun coordinates => .error (.io coordinates)
    listProperties := fun artifact => .error (.io artifact.coordinates) }
  precedence := [.sink, .source, .sink, .processor]

/-- After a pipe the sink is found for a name, and not the source or the processor of the name. -/
theorem module_names_found_homonyms :
    (∃ modules, homonymContext.Finds .downstream (fun _ => true) modules ∧
      ⟨.sink, "log", .plain "org" "out" "1"⟩ ∈ modules ∧
      proposalsFor homonymContext "log |" 2 =
        modules.map (Request.moduleName ⟨homonymContext, "log |", 2⟩ "log | " .addition)) ∧
    ∃ modules, homonymContext.Finds .downstream
        (fun name => Text.startsWith name "log" && name != "log") modules ∧
      (proposalsFor homonymContext "log | log" 1).filter (fun p => p.kind == .expanding) =
        modules.map (Request.moduleName ⟨homonymContext, "log | log", 1⟩ "log | " .expanding) := by
  have coherent : homonymContext.collaborators.catalog.Coherent := Registry.coherent_catalog _
  have named : homonymContext.collaborators.catalog.Named := by decide
  constructor
  · obtain ⟨e, fails, atEnd, expects, position, separator⟩ : ∃ e,
        Topology.parse "log |" = .error e ∧ e.atEnd = true ∧ e.expectation = .moduleName ∧
        Recovery.awaitedPosition "log |" e = .downstream ∧
        "log |" ++ Recovery.separator "log |" = "log | " := ⟨_, rfl, rfl, rfl, rfl, rfl⟩
    obtain ⟨⟨modules, finds, proposed⟩, -⟩ :=
      (module_names_found ⟨homonymContext, "log |", 2⟩ coherent named).1 e fails atEnd expects
    rw [position] at finds
    rw [separator] at proposed
    exact ⟨modules, finds, ((finds.mem_iff "log" _).mpr ⟨rfl, by decide⟩).1, proposed⟩
  · obtain ⟨t, last, parsed, unbound, isLast, position, isLog, empty⟩ : ∃ t last,
        Topology.parse "log | log" = .ok t ∧ t.sink = none ∧ t.last? = some last ∧
        t.lastPosition = .downstream ∧ last.name = "log" ∧ last.parameters.isEmpty = true :=
      ⟨_, _, rfl, rfl, rfl, rfl, rfl, rfl⟩
    obtain ⟨-, -, longer, -⟩ :=
      (module_names_found ⟨homonymContext, "log | log", 1⟩ coherent named).2 t last parsed unbound
        isLast
    obtain ⟨modules, finds, proposed⟩ := longer "log | " empty (isLog ▸ rfl)
    rw [position, isLog] at finds
    exact ⟨modules, finds, proposed⟩

end Names

end StreamLang
