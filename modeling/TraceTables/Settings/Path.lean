import TraceTables.Text.Blank

/-! Paths as texts. Joining puts a relative path below a base and lets an absolute one stand alone; nothing is
normalised. A tilde at the start of a path stands for the home directory. -/

namespace TraceTables.Settings

/-- The directories that a run starts from. -/
structure Surroundings where
  home? : Option String
  directory? : Option String

def isAbsolute (path : String) : Bool := path.toList.head? = some '/'

def join (base path : String) : String :=
  if isAbsolute path then path
  else if base.isEmpty || base.toList.getLast? = some '/' then base ++ path
  else base ++ "/" ++ path

/-- A lone tilde is the home directory. Behind a tilde and one slash or backslash stands what is joined to it. -/
def expandHome (home? : Option String) (path : String) : String :=
  match home?, path.toList with
  | some home, ['~'] => home
  | some home, '~' :: '/' :: rest => join home (String.ofList rest)
  | some home, '~' :: '\\' :: rest => join home (String.ofList rest)
  | _, _ => path

/-- The path that a text means: without blanks around it, its tilde expanded, below the working directory if it is
relative. -/
def expand (s : Surroundings) (text : String) : String :=
  let path := expandHome s.home? (String.ofList (Text.trim text.toList))
  match s.directory? with
  | none => path
  | some directory => join directory path

/-- A directory and those above it, up to the root. -/
def ancestors (path : String) : List String :=
  let parts := (path.toList.splitOn '/').map String.ofList
  (List.range parts.length).map fun n => "/".intercalate (parts.take (parts.length - n))

end TraceTables.Settings
