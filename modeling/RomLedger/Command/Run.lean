import RomLedger.Command.Arguments
import RomLedger.Command.LogFilter
import RomLedger.Command.Lookup
import RomLedger.Command.Table
import RomLedger.Config
import RomLedger.Index.Stored
import RomLedger.Work.Refresh

/- The commands of the program, from its arguments to what it says and leaves on disk. A command goes on to
   its first failure; what was said before stays said. -/
namespace RomLedger.Command

structure Setting where
  home : String
  processors : UInt64
  logFilter : String
  stopping : Bool
  deriving DecidableEq, Repr

/-- What came of a command: what it said, and the messages of its failure, outermost first, if it
failed. -/
structure Outcome where
  notes : List Note
  failure : Option (List String)
  disk : Disk Index

namespace Outcome

def code (o : Outcome) : Nat := if o.failure.isSome then 1 else 0

def spoken (o : Outcome) : List Note :=
  o.notes ++ ((o.failure.map failureLines).getD []).map Note.err

end Outcome

def failed (disk : Disk Index) (chain : List String) : Outcome := ⟨[], some chain, disk⟩

def withIndex (d : Disk Index) (c : Config) (go : Disk Index → Path → Index → Outcome) : Outcome :=
  let p := Path.ofString c.indexPath
  match Index.openStored d p with
  | (.error f, d) => failed d (("Unable to open rom index: " ++ p.shown) :: f.chain)
  | (.ok (), d) => go d p (Index.load d p)

def announce (root : Path) (workers : Nat) : List Note :=
  [.err s!"Refreshing DATs in {root.shown} with {workers} workers...",
    .err "  Press Enter to stop the refresh gracefully..."]

def conclude (c : Counts) (i : Index) : List Note :=
  let s := i.stats
  .summary c :: (if c.cancelled then [.err "  Cancelled; completed DATs were kept."] else [])
    ++ [.err (s!"  Index: {s.catalogs} DATs ({s.orphaned} orphaned), {s.games} games, "
      ++ s!"{s.roms} roms")]

def refresh (json stopping : Bool) (d : Disk Index) (c : Config) (root : Path)
    (o : Refresh.Options) : Outcome :=
  withIndex d c fun d p i =>
    let framed (before : List Event) (counts : Counts) (i : Index) : List Note :=
      if json then before.map .event else announce root o.workers ++ conclude counts i
    match Refresh.refresh d root o stopping i with
    | .error e => ⟨framed [] .zero i, some [e.message], d⟩
    | .ok s =>
      ⟨framed s.events s.counts s.shared, s.fault.map Refresh.Fault.chain, Index.save d p s.shared⟩

def statsValue (s : Index.Stats) : Json.Value :=
  .object [("dat_count", .integer s.catalogs), ("orphaned_dats", .integer s.orphaned),
    ("game_count", .integer s.games), ("rom_count", .integer s.roms),
    ("content_count", .integer s.contents)]

def statsLines (p : Path) (s : Index.Stats) : List String :=
  ["Rom index: " ++ p.shown, s!"  DATs:          {s.catalogs}", s!"  Orphaned DATs: {s.orphaned}",
    s!"  Games:         {s.games}", s!"  Roms:          {s.roms}", s!"  Content:       {s.contents}"]

def indexStats (json : Bool) (d : Disk Index) (c : Config) : Outcome :=
  withIndex d c fun d p i =>
    let lines := if json then [(statsValue i.stats).pretty] else statsLines p i.stats
    ⟨lines.map .out, none, d⟩

def depotStats (json : Bool) (d : Disk Index) (c : Config) : Outcome :=
  if c.roots.isEmpty then ⟨[.out "No depot roots configured."], none, d⟩
  else
    match Depot.load d c.roots with
    | (.error f, d) => failed d f.chain
    | (.ok depot, d) =>
      let lines := if json then [(depotValue depot).pretty] else table depot
      ⟨lines.map .out, none, d⟩

def lookupHashes (d : Disk Index) (c : Config) (hashes : List String) (size : Option UInt64) :
    Outcome :=
  withIndex d c fun d _ i =>
    let (notes, result) := lookupAll i size hashes
    ⟨notes, match result with | .ok () => none | .error f => some f.chain, d⟩

def act (s : Setting) (d : Disk Index) (json : Bool) (configPath : Path) (c : Config) :
    Action → Outcome
  | .refresh root workers maxBatchSize =>
    match root.or c.catalogRoot with
    | none =>
      failed d ["No DAT directory: pass --dats or set dat_root in " ++ configPath.shown]
    | some root =>
      refresh json s.stopping d c (.ofString root)
        ⟨max 1 (workers.getD c.workers).toNat, (maxBatchSize.getD c.maxBatchSize).toNat⟩
  | .lookup hashes size => lookupHashes d c hashes size
  | .indexStats => indexStats json d c
  | .depotStats => depotStats json d c

/-- Runs what arguments ask for: the log filter is looked at first, then the configuration. -/
def run (s : Setting) (d : Disk Index) (a : Arguments) : Outcome :=
  match LogFilter.check s.logFilter with
  | .error f => failed d f.chain
  | .ok () =>
    let p := Path.ofString (a.config.getD (Config.defaultPath s.home))
    match Config.load d (.defaults s.home s.processors) p with
    | .error f => failed d f.chain
    | .ok c => act s d a.json p c a.action

end RomLedger.Command
