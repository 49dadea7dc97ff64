import RomLedger.Command.Run
import RomLedger.Index.Archive

/- The program around the commands: it loads from disk what a command may touch, runs the command, writes back
   what has changed, and says what there is to say. -/
namespace RomLedger.Program

def usage : String :=
  "Usage: romledger [--progress-json] [--log-level LEVEL] [--config PATH] COMMAND\n\n"
    ++ "Commands:\n"
    ++ "  refresh-dats [--dats PATH] [-w|--workers N] [--max-batch-size N]\n"
    ++ "  lookup HASH... [--size N]\n"
    ++ "  dbstats\n"
    ++ "  depot-stats"

inductive Found where
  | nothing
  | directory (names : List String)
  | file (content : Bytes)

def pathOf (p : Place) : String := "/" ++ "/".intercalate p

def look (p : Place) : IO Found := do
  let file := (← IO.currentDir) / pathOf p
  match ← file.readDir.toBaseIO with
  | .ok entries => return .directory (entries.toList.map fun e => e.fileName)
  | .error _ =>
    match ← (IO.FS.readBinFile file).toBaseIO with
    | .ok b => return .file b.toList
    | .error _ => return .nothing

/-- A file as the disk holds it: an archived index is a store. -/
def entryOf (content : Bytes) : Entry Index :=
  match Archive.decode content with
  | some i => .store i
  | none => .file content

def resolve (here : Place) : List String → Place
  | [] => here
  | name :: rest =>
    if name = "." then resolve here rest
    else if name = ".." then resolve here.dropLast rest
    else resolve (here ++ [name]) rest

def placeOf (d : Disk Index) (text : String) : Place :=
  resolve (if Path.isAbsolute text then [] else d.here) (Path.namesOf text)

/-- Loads the directories that lead to a place, and what lies at it. -/
def loadPlace (d : Disk Index) (p : Place) : IO (Disk Index) := do
  let mut d := d
  for n in List.range p.length do
    let q := p.take (n + 1)
    match ← look q with
    | .nothing => return d
    | .directory _ => d := d.set q .dir
    | .file b => d := d.set q (entryOf b)
  return d

partial def loadTree (d : Disk Index) (around : List String) (p : Place) : IO (Disk Index) := do
  match ← look p with
  | .nothing => return d
  | .file b => return d.set p (.file b)
  | .directory names =>
    let here := toString (← IO.FS.realPath (pathOf p))
    if around.contains here then return d
    let mut d := if p.isEmpty then d else d.set p .dir
    for name in names do
      let q := p ++ [name]
      if Refresh.accepts ⟨"", q⟩ then
        d ← loadTree d (here :: around) q
      else
        match ← ((← IO.currentDir) / pathOf q).readDir.toBaseIO with
        | .ok _ => d ← loadTree d (here :: around) q
        | .error _ => d := d.set q (.file [])
    return d

def rootFiles : List String :=
  [Generation.fileName, BloomFilter.fileName, BloomFilter.backupName]

def loadFor (s : Command.Setting) (a : Command.Arguments) : IO (Disk Index) := do
  let here := Path.namesOf (toString (← IO.currentDir))
  let mut d ← loadPlace { Disk.empty with here := here } here
  let configPath := a.config.getD (Config.defaultPath s.home)
  d ← loadPlace d (placeOf d configPath)
  match Config.load d (.defaults s.home s.processors) (.ofString configPath) with
  | .error _ => return d
  | .ok c =>
    d ← loadPlace d (placeOf d c.indexPath)
    match a.action with
    | .refresh root _ _ =>
      match root.or c.catalogRoot with
      | none => return d
      | some root =>
        d ← loadPlace d (placeOf d root)
        loadTree d [] (placeOf d root)
    | .depotStats =>
      for r in c.roots do
        for name in rootFiles do
          d ← loadPlace d (placeOf d r.path ++ [name])
      return d
    | _ => return d

def isSame : Entry Index → Entry Index → Bool
  | .dir, .dir => true
  | .file a, .file b => a = b
  | .store a, .store b => a = b
  | _, _ => false

def writeBack (before after : Disk Index) : IO Unit := do
  for (p, e) in after.entries.reverse do
    if (before.get? p).all fun old => !isSame old e then
      match e with
      | .dir => IO.FS.createDirAll (pathOf p)
      | .file b => IO.FS.writeBinFile (pathOf p) ⟨b.toArray⟩
      | .store i => IO.FS.writeBinFile (pathOf p) ⟨(Archive.encode i).toArray⟩
      | .link _ => pure ()

def processors : IO UInt64 := do
  match ← (IO.FS.readFile "/proc/cpuinfo").toBaseIO with
  | .ok text =>
    let lines := (Text.split '\n' text.toList).filter fun l => "processor".toList.isPrefixOf l
    return UInt64.ofNat (max 1 lines.length)
  | .error _ => return 1

def say (elapsed : Span) : Command.Note → IO Unit
  | .out t => IO.println t
  | .err t => IO.eprintln t
  | .event e => IO.eprintln (Command.eventLine elapsed e)
  | .summary c => IO.eprintln (Command.summaryLine c (Decimal.onePlace elapsed.toFloat))

def runWith (a : Command.Arguments) : IO UInt32 := do
  let home := (← IO.getEnv "HOME").getD ""
  let filter := (← IO.getEnv "RUST_LOG").getD ""
  let setting : Command.Setting := ⟨home, ← processors, filter, false⟩
  let before ← loadFor setting a
  let start ← IO.monoNanosNow
  let o ← IO.lazyPure fun _ => Command.run setting before a
  let stop ← IO.monoNanosNow
  writeBack before o.disk
  for note in o.spoken do
    say (.ofParts 0 (stop - start)) note
  return UInt32.ofNat o.code

end RomLedger.Program

def main (args : List String) : IO UInt32 := do
  match RomLedger.Command.Arguments.parse args with
  | .error m =>
    IO.eprintln ("error: " ++ m.message)
    IO.eprintln RomLedger.Program.usage
    return 2
  | .ok none =>
    IO.println RomLedger.Program.usage
    return 0
  | .ok (some a) => RomLedger.Program.runWith a
