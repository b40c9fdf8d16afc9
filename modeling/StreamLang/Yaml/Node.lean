import StreamLang.Yaml.Token

/-!
Documents of YAML texts: scalars, sequences and mappings.

An alias is kept as a reference to the anchor it names, and looked up only where its content
matters. Anchors are numbered, and an anchor that repeats a name gets a number of its own.
-/

namespace StreamLang.Yaml

/-- A node of a document. -/
inductive Node where
  /-- A reference to the node with this anchor. -/
  | alias (anchor : Nat)
  /-- A scalar, its tag, and whether it is written without quotes and not as a block. -/
  | scalar (tag : Option (List UInt8)) (text : String) (plain : Bool)
  | sequence (items : List Node)
  | mapping (entries : List (Node × Node))

/-- The scalar that stands where nothing is written. -/
def Node.blank : Node := .scalar none "" true

/-- The node of an anchor, with the number of anchors that opened before it. -/
structure Definition where
  anchor : Nat
  opened : Nat
  node : Node

/-- A document: its root, and the nodes of its anchors. -/
structure Document where
  root : Node
  definitions : List Definition

namespace Document

/-- Of the definitions of an anchor, the one that opened last. -/
def definition? (d : Document) (anchor : Nat) : Option Definition :=
  (d.definitions.filter fun x => x.anchor == anchor).foldl
    (fun best x =>
      match best with
      | some b => if b.opened < x.opened then some x else some b
      | none => some x)
    none

/-- The node itself, or the node that an alias stands for. -/
def resolve? (d : Document) : Node → Option Node
  | .alias anchor => (d.definition? anchor).map Definition.node
  | n => some n

end Document

/-! ## Reading -/

/-- What reading a document keeps: the tokens left, the handles of tags, and the anchors so far. -/
structure Reader where
  tokens : List Token
  handles : List (String × List UInt8)
  /-- The numbers of the names of anchors. -/
  names : List (String × Nat)
  /-- The number of anchors opened. -/
  opened : Nat
  definitions : List Definition

/-- Steps of reading, which fail at a token that does not fit. -/
abbrev Read := StateT Reader Option

namespace Reader

/-- The token that comes next. -/
def peek : Read Token := do
  match (← get).tokens with
  | t :: _ => pure t
  | [] => failure

/-- Passes over a token. -/
def skip : Read Unit := modify fun r => { r with tokens := r.tokens.tail }

/-- Passes over the token that comes next when it is `t`, and says whether it was. -/
def skipIf (t : Token) : Read Bool := do
  if (← peek) = t then do
    skip
    pure true
  else pure false

/-- Whether one of these tokens comes next. -/
def nextIsOf (ts : List Token) : Read Bool := do
  let t ← peek
  pure (ts.contains t)

/-- The number of the anchor that a name stands for now. -/
def anchorOf (name : String) : Read Nat := do
  match (← get).names.lookup name with
  | some anchor => pure anchor
  | none => failure

/-- Opens an anchor. Its number is the number of names known before it. -/
def openAnchor (name : String) : Read (Nat × Nat) := do
  let r ← get
  let anchor := r.names.length
  set { r with
    names := (name, anchor) :: r.names.filter fun known => known.1 != name
    opened := r.opened + 1 }
  pure (anchor, r.opened)

/-- Gives an open anchor its node. -/
def define (d : Definition) : Read Unit :=
  modify fun r => { r with definitions := d :: r.definitions }

/-- The tag that comes next, if there is one. -/
def tag? : Read (Option (List UInt8)) := do
  match ← peek with
  | .tag t => do
      skip
      match t.resolve? (← get).handles with
      | some tag => pure (some tag)
      | none => failure
  | _ => pure none

/-- The anchor that comes next, opened, if there is one. -/
def anchor? : Read (Option (Nat × Nat)) := do
  match ← peek with
  | .anchor name => do
      skip
      some <$> openAnchor name
  | _ => pure none

/-- The anchor and the tag before a node, in either order. -/
def decoration : Read (Option (Nat × Nat) × Option (List UInt8)) := do
  match ← anchor? with
  | some anchor => pure (some anchor, ← tag?)
  | none => do
      let tag ← tag?
      pure (← anchor?, tag)

/-- Passes over the comma that an item of a flow collection needs unless it is the first, and says
whether it was there. -/
def comma (first : Bool) : Read Bool :=
  if first then pure true else skipIf .flowEntry

/-! ### Nodes -/

mutual

/-- Reads a node. In a block, block collections may follow, and where `indentless` also a sequence
whose dashes are not indented. -/
def node (fuel : Nat) (block indentless : Bool) : Read Node :=
  match fuel with
  | 0 => failure
  | fuel + 1 => do
      match ← peek with
      | .alias name => do
          skip
          .alias <$> anchorOf name
      | _ => do
          let (anchor, tag) ← decoration
          let node ← content fuel block indentless (anchor.isSome || tag.isSome) tag
          match anchor with
          | some (number, opened) => define ⟨number, opened, node⟩
          | none => pure ()
          pure node

/-- Reads what an anchor or tag stands before. After either of them there may be nothing. -/
def content (fuel : Nat) (block indentless decorated : Bool) (tag : Option (List UInt8)) :
    Read Node :=
  match fuel with
  | 0 => failure
  | fuel + 1 => do
      match ← peek with
      | .scalar text plain => do
          skip
          pure (.scalar tag text plain)
      | .flowSequenceStart => do
          skip
          .sequence <$> flowItems fuel true
      | .flowMappingStart => do
          skip
          .mapping <$> flowEntries fuel true
      | .blockSequenceStart =>
          if block then do
            skip
            .sequence <$> blockItems fuel
          else orBlank decorated tag
      | .blockMappingStart =>
          if block then do
            skip
            .mapping <$> blockEntries fuel
          else orBlank decorated tag
      | .blockEntry =>
          if indentless then .sequence <$> plainItems fuel else orBlank decorated tag
      | _ => orBlank decorated tag

/-- The empty scalar with a tag, where an anchor or tag allows one. -/
def orBlank (decorated : Bool) (tag : Option (List UInt8)) : Read Node :=
  if decorated then pure (.scalar tag "" true) else failure

/-- Reads a node, or an empty scalar where one of the tokens comes next. -/
def nodeUnless (fuel : Nat) (stops : List Token) (block indentless : Bool) : Read Node :=
  match fuel with
  | 0 => failure
  | fuel + 1 => do
      if ← nextIsOf stops then pure .blank else node fuel block indentless

/-- Reads the items of a block sequence and its end. -/
def blockItems (fuel : Nat) : Read (List Node) :=
  match fuel with
  | 0 => failure
  | fuel + 1 => do
      if ← skipIf .blockEntry then do
        let item ← nodeUnless fuel [.blockEntry, .blockEnd] true false
        (item :: ·) <$> blockItems fuel
      else if ← skipIf .blockEnd then pure []
      else failure

/-- Reads the items of a sequence whose dashes are not indented. -/
def plainItems (fuel : Nat) : Read (List Node) :=
  match fuel with
  | 0 => failure
  | fuel + 1 => do
      if ← skipIf .blockEntry then do
        let item ← nodeUnless fuel [.blockEntry, .key, .value, .blockEnd] true false
        (item :: ·) <$> plainItems fuel
      else pure []

/-- Reads the entries of a block mapping and its end. -/
def blockEntries (fuel : Nat) : Read (List (Node × Node)) :=
  match fuel with
  | 0 => failure
  | fuel + 1 => do
      if ← skipIf .key then do
        let key ← nodeUnless fuel [.key, .value, .blockEnd] true true
        let value ←
          if ← skipIf .value then nodeUnless fuel [.key, .value, .blockEnd] true true
          else pure .blank
        ((key, value) :: ·) <$> blockEntries fuel
      else if ← skipIf .blockEnd then pure []
      else failure

/-- Reads the items of a flow sequence and its end. Between items there is a comma, and one may
follow the last. -/
def flowItems (fuel : Nat) (first : Bool) : Read (List Node) :=
  match fuel with
  | 0 => failure
  | fuel + 1 => do
      if ← skipIf .flowSequenceEnd then pure []
      else if !(← comma first) then failure
      else if ← skipIf .flowSequenceEnd then pure []
      else if ← skipIf .key then do
        let entry ← flowPair fuel
        (.mapping [entry] :: ·) <$> flowItems fuel false
      else do
        let item ← node fuel false false
        (item :: ·) <$> flowItems fuel false

/-- Reads the only entry of a mapping written as an item of a flow sequence. Where the key is left
out, the token that shows it is passed over. -/
def flowPair (fuel : Nat) : Read (Node × Node) :=
  match fuel with
  | 0 => failure
  | fuel + 1 => do
      let key ←
        if ← nextIsOf [.value, .flowEntry, .flowSequenceEnd] then do
          skip
          pure Node.blank
        else node fuel false false
      let value ←
        if ← skipIf .value then nodeUnless fuel [.flowEntry, .flowSequenceEnd] false false
        else pure .blank
      pure (key, value)

/-- Reads the entries of a flow mapping and its end. -/
def flowEntries (fuel : Nat) (first : Bool) : Read (List (Node × Node)) :=
  match fuel with
  | 0 => failure
  | fuel + 1 => do
      if ← skipIf .flowMappingEnd then pure []
      else if !(← comma first) then failure
      else if ← skipIf .flowMappingEnd then pure []
      else if ← skipIf .key then do
        let key ← nodeUnless fuel [.value, .flowEntry, .flowMappingEnd] false false
        let value ←
          if ← skipIf .value then nodeUnless fuel [.flowEntry, .flowMappingEnd] false false
          else pure .blank
        ((key, value) :: ·) <$> flowEntries fuel false
      else do
        let key ← node fuel false false
        ((key, .blank) :: ·) <$> flowEntries fuel false

end

/-! ### Documents -/

/-- Reads the directives before a document. There is at most one for the version, which has to be
1.1 or 1.2, and at most one for each handle. -/
def directives (versioned : Bool) (handles : List (String × List UInt8)) :
    List Token → Option (List (String × List UInt8) × List Token)
  | .version major minor :: ts =>
      if versioned || major != 1 || !(minor == 1 || minor == 2) then none
      else directives true handles ts
  | .tagHandle handle start :: ts =>
      if (handles.lookup handle).isSome then none
      else directives versioned ((handle, start) :: handles) ts
  | ts => some (handles, ts)

/-- The only document of a text, or none where the text holds nothing. -/
def document? (tokens : List Token) : Option (Option Document) := do
  let fuel := 4 * tokens.length + 8
  let start (handles : List (String × List UInt8)) (tokens : List Token) : Reader :=
    ⟨tokens, handles ++ Tag.defaultHandles, [], 0, []⟩
  let finish (root : Node) (r : Reader) : Option (Option Document) :=
    match r.tokens.dropWhile (· = .documentEnd) with
    | [.streamEnd] => some (some ⟨root, r.definitions⟩)
    | _ => none
  match tokens with
  | [.streamEnd] => some none
  | .version _ _ :: _ | .tagHandle _ _ :: _ | .documentStart :: _ => do
      let (handles, rest) ← directives false [] tokens
      match rest with
      | .documentStart :: rest =>
          match rest with
          | .version _ _ :: _ | .tagHandle _ _ :: _ | .documentStart :: _ | .documentEnd :: _
          | .streamEnd :: _ => finish .blank (start handles rest)
          | _ => do
              let (root, r) ← (node fuel true false).run (start handles rest)
              finish root r
      | _ => none
  | _ => do
      let (root, r) ← (node fuel true false).run (start [] tokens)
      finish root r

end Reader

/-- The document of a YAML text, or none where the text holds nothing. Malformed texts, and texts of
several documents, have no answer. -/
def document? (text : String) : Option (Option Document) := do
  let tokens ← tokens? text
  Reader.document? tokens

end StreamLang.Yaml
