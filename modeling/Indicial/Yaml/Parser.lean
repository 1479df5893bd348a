import Indicial.Yaml.Scanner

/-!
# From tokens to documents

A document is read from tokens by one function for each kind of collection. A missing key, value or
item stands for nothing. What follows the first document is not read, apart from the tokens that the
scanner has to see to know that the document is over.
-/

namespace Indicial.Yaml

/-- The state of reading a document. -/
structure Progress where
  scanner : Scanner
  /-- The anchored nodes so far, last first. -/
  anchors : List (List Char × Yaml)
  /-- What the handles of tags stand for. -/
  handles : List (List Char × List Char)

/-- A step of reading, which may fail. -/
abbrev Reading := StateT Progress Option

/-- The next token, which stays. -/
def peek : Reading Token := do
  let p ← get
  let (t, scanner) ← p.scanner.peek
  set { p with scanner }
  return t

/-- Passes over the next token. -/
def pop : Reading Unit := modify fun p => { p with scanner := p.scanner.pop }

/-- Records an anchored node. -/
def define (name : Option (List Char)) (node : Yaml) : Reading Unit :=
  match name with
  | some name => modify fun p => { p with anchors := (name, node) :: p.anchors }
  | none => pure ()

/-- The node of an anchor. -/
def anchored (name : List Char) : Reading Yaml := do
  match (← get).anchors.lookup name with
  | some node => return node
  | none => failure

/-- Reads a collection. References to it from inside are cyclic. -/
def enclosed (name : Option (List Char)) (reader : Reading Yaml) : Reading Yaml := do
  define name .cyclic
  let node ← reader
  match name with
  | some anchor =>
    if let .cyclic ← anchored anchor then define name node
    return node
  | none => return node

/-- The handles that every document has. -/
def ownHandles : List (List Char × List Char) := [(['!'], ['!']), (['!', '!'], ownTags.toList)]

/-- The tag that a handle and a suffix stand for. -/
def fullTag (handle suffix : List Char) : Reading (List Char) := do
  if handle.isEmpty then return suffix
  else match (← get).handles.lookup handle with
    | some start => return start ++ suffix
    | none => failure

/-- The anchor and the tag before a node, in either order. -/
def properties : Reading (Option (List Char) × Option (List Char)) := do
  match ← peek with
  | .anchor name =>
    pop
    match ← peek with
    | .tag handle suffix => pop; return (some name, some (← fullTag handle suffix))
    | _ => return (some name, none)
  | .tag handle suffix =>
    pop
    let next ← peek
    let tag ← fullTag handle suffix
    match next with
    | .anchor name => pop; return (some name, some tag)
    | _ => return (none, some tag)
  | _ => return (none, none)

/-- The node of a scalar. A string tag has the effect of quotes, and an exclamation mark none. -/
def scalarNode (tag : Option (List Char)) (isPlain : Bool) (text : List Char) : Yaml :=
  let untagged := if isPlain then plain (encode text) else quoted (encode text)
  match tag with
  | none => untagged
  | some tag =>
    if tag == ['!'] then untagged
    else if tag == (ownTags ++ "str").toList then quoted (encode text)
    else tagged (encode tag) (encode text)

mutual

/-- A node. Block collections are nodes only where `block` is set, and a sequence that does not open
a block of its own only where `level` is set. -/
def node : (fuel : Nat) → (block level : Bool) → Reading Yaml
  | 0, _, _ => failure
  | fuel + 1, block, level => do
    if let .alias name ← peek then
      pop
      anchored name
    else
      let (name, tag) ← properties
      match ← peek with
      | .scalar isPlain text =>
        pop
        let node := scalarNode tag isPlain text
        define name node
        return node
      | .flowSequence => pop; enclosed name (sequence <$> flowItems fuel true)
      | .flowMapping => pop; enclosed name (mapping <$> flowEntries fuel true)
      | token =>
        if level && token == .blockEntry then enclosed name (sequence <$> levelItems fuel)
        else if block && token == .blockSequence then
          pop
          enclosed name (sequence <$> blockItems fuel)
        else if block && token == .blockMapping then
          pop
          enclosed name (mapping <$> blockEntries fuel)
        else if name.isSome || tag.isSome then
          let node := scalarNode tag true []
          define name node
          return node
        else failure

/-- The items of a block sequence. -/
def blockItems : (fuel : Nat) → Reading (List Yaml)
  | 0 => failure
  | fuel + 1 => do
    match ← peek with
    | .blockEntry =>
      pop
      let next ← peek
      let item ← if next == .blockEntry || next == .blockEnd then pure null else node fuel true false
      return item :: (← blockItems fuel)
    | .blockEnd => pop; return []
    | _ => failure

/-- The items of a sequence in the column of the mapping that it is a value of. It ends before the
next key. -/
def levelItems : (fuel : Nat) → Reading (List Yaml)
  | 0 => failure
  | fuel + 1 => do
    match ← peek with
    | .blockEntry =>
      pop
      let next ← peek
      let item ← if next == .blockEntry || next == .key || next == .value || next == .blockEnd
        then pure null else node fuel true false
      return item :: (← levelItems fuel)
    | _ => return []

/-- The key or the value of an entry of a block mapping, behind its mark. -/
def blockPart : (fuel : Nat) → Reading Yaml
  | 0 => failure
  | fuel + 1 => do
    let next ← peek
    if next == .key || next == .value || next == .blockEnd then return null
    else node fuel true true

/-- The entries of a block mapping. -/
def blockEntries : (fuel : Nat) → Reading (List (Yaml × Yaml))
  | 0 => failure
  | fuel + 1 => do
    match ← peek with
    | .key =>
      pop
      let key ← blockPart fuel
      let value ← if (← peek) == .value then pop; blockPart fuel else pure null
      return (key, value) :: (← blockEntries fuel)
    | .blockEnd => pop; return []
    | _ => failure

/-- The items of a flow sequence. A key among them begins a mapping of one entry. -/
def flowItems : (fuel : Nat) → (first : Bool) → Reading (List Yaml)
  | 0, _ => failure
  | fuel + 1, first => do
    if (← peek) == .flowSequenceEnd then
      pop
      return []
    else
      if !first then
        if (← peek) == .flowEntry then pop else failure
      match ← peek with
      | .flowSequenceEnd => pop; return []
      | .key =>
        pop
        let entry ← flowPair fuel
        return mapping [entry] :: (← flowItems fuel false)
      | _ =>
        let item ← node fuel false false
        return item :: (← flowItems fuel false)

/-- The entry of a mapping in a flow sequence, behind the mark of its key. A missing key takes the
token that follows with it. -/
def flowPair : (fuel : Nat) → Reading (Yaml × Yaml)
  | 0 => failure
  | fuel + 1 => do
    let next ← peek
    let key ← if next == .value || next == .flowEntry || next == .flowSequenceEnd then
        pop
        pure null
      else node fuel false false
    if (← peek) == .value then
      pop
      let next ← peek
      if next == .flowEntry || next == .flowSequenceEnd then return (key, null)
      else return (key, ← node fuel false false)
    else return (key, null)

/-- The entries of a flow mapping. What is not marked as a key is one without a value. -/
def flowEntries : (fuel : Nat) → (first : Bool) → Reading (List (Yaml × Yaml))
  | 0, _ => failure
  | fuel + 1, first => do
    if (← peek) == .flowMappingEnd then
      pop
      return []
    else
      if !first then
        if (← peek) == .flowEntry then pop else failure
      match ← peek with
      | .flowMappingEnd => pop; return []
      | .key =>
        pop
        let entry ← flowEntry fuel
        return entry :: (← flowEntries fuel false)
      | _ =>
        let key ← node fuel false false
        return (key, null) :: (← flowEntries fuel false)

/-- An entry of a flow mapping, behind the mark of its key. -/
def flowEntry : (fuel : Nat) → Reading (Yaml × Yaml)
  | 0 => failure
  | fuel + 1 => do
    let missing (t : Token) : Bool := t == .flowEntry || t == .flowMappingEnd
    let next ← peek
    let key ← if next == .value || missing next then pure null else node fuel false false
    if (← peek) == .value then
      pop
      if missing (← peek) then return (key, null) else return (key, ← node fuel false false)
    else return (key, null)

end

/-- The directives before a document. There is at most one for the version, which is 1.1, and one for
each handle. -/
def directives : (fuel : Nat) → (versioned : Bool) → Reading Unit
  | 0, _ => failure
  | fuel + 1, versioned => do
    match ← peek with
    | .version major minor =>
      if versioned || major != 1 || minor != 1 then failure
      else
        pop
        directives fuel true
    | .tagHandle handle start =>
      if ((← get).handles.lookup handle).isSome then failure
      else
        modify fun p => { p with handles := (handle, start) :: p.handles }
        pop
        directives fuel versioned
    | _ => modify fun p => { p with handles := p.handles ++ ownHandles }

/-- The content of a document behind the line that starts it, which may be missing. -/
def started (fuel : Nat) : Reading Yaml := do
  match ← peek with
  | .documentStart =>
    pop
    match ← peek with
    | .version _ _ | .tagHandle _ _ | .documentStart | .documentEnd | .streamEnd => return null
    | _ => node fuel true false
  | _ => failure

/-- The first document. Directives have to be followed by a line that starts it. -/
def document (fuel : Nat) : Reading Yaml := do
  let first ← peek
  directives fuel false
  let root ← match first with
    | .streamEnd => pure null
    | .version _ _ | .tagHandle _ _ | .documentStart => started fuel
    | _ => node fuel true false
  discard peek
  return root

/-- The first document of a text. A text without a document stands for nothing. -/
def parse (source : Bytes) : Option Yaml := do
  let s := Scanner.start (Text.ofBytes source)
  let (root, _) ← (document (8 * s.size + 32)).run ⟨s, [], []⟩
  return root

end Indicial.Yaml
