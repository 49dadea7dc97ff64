import RomLedger.Command.Arguments
import RomLedger.Text.Basic

/- Log filters: directives between commas, each a level, or a target with a span and a level of its own. Only
   whether a filter is well formed is of interest here. -/
namespace RomLedger.Command.LogFilter

inductive Fault where
  | directive
  | level
  deriving DecidableEq, Repr

def Fault.message : Fault → String
  | .directive => "invalid filter directive"
  | .level =>
    "error parsing level filter: expected one of \"off\", \"error\", \"warn\", \"info\", "
      ++ "\"debug\", \"trace\", or a number 0-5"

def Fault.chain (f : Fault) : List String :=
  "invalid RUST_LOG" :: List.replicate (match f with | .directive => 2 | .level => 3) f.message

def isLevelFilter (s : String) : Bool :=
  match Numeral.natural 10 Numeral.max64 s.toList with
  | .ok n => n ≤ levelNames.length
  | .error _ => ("" :: "off" :: levelNames).contains s.toLower

inductive Place where
  | start
  | name
  | span
  | field (isEmpty : Bool)
  | fields
  | target
  | level
  deriving DecidableEq, Repr

def beginsName (c : Char) : Bool :=
  c.isAlphanum || c == '-' || c == ':' || c == '_' || 128 ≤ c.toNat

def step (c : Char) : Place → Option Place
  | .start => if c = '[' then some .span else if beginsName c then some .name else none
  | .name => some (if c = '=' then .level else if c = '[' then .span else .name)
  | .span => some (if c = ']' then .target else if c = '\x7b' then .field true else .span)
  | .field isEmpty =>
    if c = '\x7d' then (if isEmpty then none else some .fields) else some (.field false)
  | .fields => if c = ']' then some .target else none
  | .target => if c = '=' then some .level else none
  | .level => some .level

def follow : Place → Nat → List Char → Option (Place × Nat)
  | p, start, [] => some (p, start)
  | p, start, c :: rest =>
    match step c p with
    | none => none
    | some q => follow q (if p = .level then start else start + 1) rest

/-- A directive may have blanks around it, but its level may not: the level is looked for as far into
the directive as it is without the blanks in front. -/
def checkDirective (s : List Char) : Except Fault Unit :=
  match follow .start 0 (Text.trimList s) with
  | some (.level, start) =>
    if isLevelFilter (String.ofList (s.drop start)) then .ok () else .error .level
  | some (.name, _) | some (.target, _) => .ok ()
  | _ => .error .directive

def check (s : String) : Except Fault Unit :=
  ((Text.split ',' s.toList).filter fun d => !d.isEmpty).forM checkDirective

end RomLedger.Command.LogFilter
