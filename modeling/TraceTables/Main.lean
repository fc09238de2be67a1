import TraceTables.Program

/-! The command line program: files, environment and output of a `Program.run`. -/

namespace TraceTables

def helpText : String :=
  "Trace event and protobuf args ingestion\n\n" ++
  "Usage: trace-ingest [OPTIONS] [COMMAND]\n\n" ++
  "Commands:\n" ++
  "  replay <EVENTS>                       Replay a JSON array of trace events\n" ++
  "  args -t <TYPE> <INPUT> [--hex] [--fields <N,...>]\n" ++
  "                                        Parse one protobuf message into args\n" ++
  "  help                                  Print this message\n\n" ++
  "Options:\n" ++
  "  -c, --config <CONFIG>                 Path to config file\n" ++
  "      --max-depth <MAX_DEPTH>           Maximum protobuf message nesting depth\n" ++
  "  -d, --descriptor-set <SETS>           Serialized FileDescriptorSet files\n" ++
  "      --pretty <true|false>             Pretty-print JSON output\n" ++
  "  -h, --help                            Print help\n" ++
  "  -V, --version                         Print version\n"

/-- The files of the machine. -/
def machineDisk : Settings.Disk IO where
  read? path := do
    try
      return some (← IO.FS.readBinFile path).toList
    catch _ => return none
  present path := do
    try
      let _ ← IO.FS.realPath path
      return true
    catch _ => return false

def machineVariable (name : String) : IO (Option String) :=
  if name.toList.contains '\x00' then return none else IO.getEnv name

end TraceTables

open TraceTables in
def main (words : List String) : IO UInt32 := do
  let directory ← IO.currentDir
  let exit ← Program.run machineDisk machineVariable ⟨none, some directory.toString⟩ words
  match exit.output with
  | .nothing => pure ()
  | .help => IO.print helpText
  | .text s => IO.print s
  match exit.error?, exit.code with
  | some e, _ => IO.eprintln ("\nError: " ++ e ++ "\n")
  | none, 2 => IO.eprintln "error: the arguments are not understood"
  | none, 101 => IO.eprintln "a variable cannot be set to a value with a NUL"
  | none, _ => pure ()
  return exit.code.toUInt32
