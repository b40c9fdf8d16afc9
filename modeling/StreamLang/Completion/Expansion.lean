import StreamLang.Completion.Recovery

/-!
Proposals for texts that are streams already: a longer name for the last module, an option for it,
or another module after it.
-/

namespace StreamLang

/-- The ways to continue a stream. -/
inductive Expansion where
  /-- Modules whose names go on where the last one stops. -/
  | unfinishedModuleName
  /-- The properties of the last module that are not set. -/
  | moduleOptions
  /-- A pipe and a module that it can feed. -/
  | pipe
  deriving DecidableEq, Repr

namespace Expansion

/-- The name under which the expansion is known. -/
def name : Expansion → String
  | .unfinishedModuleName => "unfinished-module-name"
  | .moduleOptions => "module-options"
  | .pipe => "pipe"

/-- The expansions in their usual order. -/
def standard : List Expansion := [.unfinishedModuleName, .moduleOptions, .pipe]

/-- The modules whose names properly extend the name at the end of the text. -/
def ofUnfinishedName (q : Request) (t : Topology) (last : Stage) : List Proposal :=
  if !last.parameters.isEmpty then []
  else
    match Text.beforeSuffix? q.text last.name with
    | none => []
    | some before =>
        let longer := (q.context.registrationsAt t.lastPosition).filter fun r =>
          last.name.toList.isPrefixOf r.name.toList && r.name != last.name
        longer.map (q.moduleName before .expanding)

/-- The properties not set yet, each after dashes of its own. -/
def ofOptions (q : Request) (t : Topology) : Logged (List Proposal) := do
  match ← q.context.lastStage t with
  | none => pure []
  | some known => pure (known.unsetProperties.map (q.propertyName (q.base ++ " --") .addition))

/-- The modules that the last one can feed, when it has output. -/
def ofPipe (q : Request) (t : Topology) (last : Stage) : List Proposal :=
  match q.context.findModule last.name t.lastPosition with
  | none => []
  | some r =>
      if r.type.hasOutput then
        (q.context.registrationsAt .downstream).map (q.moduleName (q.base ++ " | ") .addition)
      else []

/-- The proposals for a text that is a stream. Nothing can follow the destination at its end. -/
def proposals (x : Expansion) (q : Request) (t : Topology) : Logged (List Proposal) :=
  match t.sink, t.last? with
  | none, some last =>
      match x with
      | .unfinishedModuleName => pure (ofUnfinishedName q t last)
      | .moduleOptions => ofOptions q t
      | .pipe => pure (ofPipe q t last)
  | _, _ => pure []

end Expansion

end StreamLang
