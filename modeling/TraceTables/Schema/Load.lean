import TraceTables.Schema.Entries

/-! Loading a descriptor set into a schema. All message types of the set are declared first, nested ones before
those around them, then the extensions. Relative names are looked for from the innermost scope outward. A
fault stops the load and leaves what was declared before it. -/

namespace TraceTables.Schema

/-- What is in front of each dot of a name, the longest first. -/
def cuts : List Char → List (List Char)
  | [] => []
  | c :: cs => (cuts cs).map (c :: ·) ++ if c = '.' then [[]] else []

/-- A scope and those around it, out to the empty one. -/
def scopes (scope : String) : List String :=
  scope :: ((cuts scope.toList).map String.ofList ++ [""])

/-- The full name that a type name has in a scope: itself if it is full already, and else that of the innermost
scope in which a message of the name is known. -/
def resolve (known : String → Bool) (scope typeName : String) : Option String :=
  if typeName.isEmpty then none
  else if typeName.toList.head? = some '.' then some typeName
  else ((scopes scope).map fun s => s ++ "." ++ typeName).find? known

/-- The declaration of a field that stands in a scope. Its number is looked at before its type. -/
def FieldEntry.declare (known : String → Bool) (scope : String) (f : FieldEntry) :
    Except Fault FieldDecl :=
  if f.number ≤ 0 then .error (.invalidFieldNumber (scope ++ "." ++ f.name) f.number)
  else if f.type.isMessageLike then
    match resolve known scope f.typeName with
    | none => .error (.unresolvedType (scope ++ "." ++ f.name) f.typeName)
    | some typeName =>
      .ok ⟨f.name, f.number.toNat, f.type, some (qualify typeName), f.repeated, false⟩
  else .ok ⟨f.name, f.number.toNat, f.type, none, f.repeated, false⟩

/-- Something declared in a scope. -/
structure Scoped (α : Type) where
  scope : String
  entry : α

/-- The scope of the top of a file. -/
def FileEntry.scope (f : FileEntry) : String := if f.package.isEmpty then "" else qualify f.package

/-- The fields of a message type under its full name. -/
structure Layout where
  fullName : String
  fields : List FieldEntry

mutual

/-- A message type of a scope and those nested in it, the nested ones first. -/
def MessageEntry.layouts (scope : String) : MessageEntry → List Layout
  | .mk name fields nested _ =>
    layoutsAll (scope ++ "." ++ name) nested ++ [⟨scope ++ "." ++ name, fields⟩]

def layoutsAll (scope : String) : List MessageEntry → List Layout
  | [] => []
  | m :: ms => m.layouts scope ++ layoutsAll scope ms

end

mutual

/-- The extensions that stand inside a message type, those of nested types first. -/
def MessageEntry.scopedExtensions (scope : String) : MessageEntry → List (Scoped FieldEntry)
  | .mk name _ nested extensions =>
    scopedExtensionsAll (scope ++ "." ++ name) nested ++ extensions.map (⟨scope ++ "." ++ name, ·⟩)

def scopedExtensionsAll (scope : String) : List MessageEntry → List (Scoped FieldEntry)
  | [] => []
  | m :: ms => m.scopedExtensions scope ++ scopedExtensionsAll scope ms

end

/-- All message types of a set. -/
def layouts (files : List FileEntry) : List Layout := files.flatMap fun f => layoutsAll f.scope f.messages

/-- All extensions of a set; those at the top of a file come after those inside its messages. -/
def extensions (files : List FileEntry) : List (Scoped FieldEntry) :=
  files.flatMap fun f => scopedExtensionsAll f.scope f.messages ++ f.extensions.map (⟨f.scope, ·⟩)

/-- Is a name one of the schema's message types or among `more`? -/
def knows (s : Schema) (more : List String) (name : String) : Bool :=
  s.messages.contains name || more.contains name

/-- Adds what a layout declares. -/
def addLayout (known : String → Bool) (s : Schema) (l : Layout) : Except Fault Schema :=
  (l.fields.mapM (FieldEntry.declare known l.fullName)).map fun fs =>
    s.declare ((MessageDecl.named l.fullName).addAll fs)

/-- Adds an extension to the message type that it names in its scope. -/
def addExtension (known : String → Bool) (s : Schema) (x : Scoped FieldEntry) : Except Fault Schema :=
  match resolve known x.scope x.entry.extendee with
  | none => .error (.unknownExtendee x.entry.name x.entry.extendee)
  | some extendee =>
    match x.entry.declare known x.scope with
    | .error e => .error e
    | .ok f => s.extend extendee f

/-- Takes steps until one fails; the schema is then that before the failing step. -/
def steps {α : Type} (step : Schema → α → Except Fault Schema) : Schema → List α → Schema × Option Fault
  | s, [] => (s, none)
  | s, a :: as =>
    match step s a with
    | .error e => (s, some e)
    | .ok s' => steps step s' as

/-- Loads files; the fault, if there is one, tells why the load stopped. -/
def load (s : Schema) (files : List FileEntry) : Schema × Option Fault :=
  let names := (layouts files).map Layout.fullName
  let known := s.knows names
  match steps (addLayout known) s (layouts files) with
  | (s', some e) => (s', some e)
  | (s', none) => steps (addExtension known) s' (extensions files)

/-- Loads an encoded set. Bytes that are no set change nothing. -/
def loadBytes (s : Schema) (bytes : List UInt8) : Schema × Option Fault :=
  match decodeSet bytes with
  | none => (s, some .undecodable)
  | some files => s.load files

end TraceTables.Schema
