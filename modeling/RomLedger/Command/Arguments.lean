import RomLedger.Text.Numeral

/- The arguments of the program: switches, and the words between them. Some switches may stand on either side
   of the action; behind the action they count before those in front of it. -/
namespace RomLedger.Command

inductive Switch where
  | json
  | logLevel
  | config
  | catalogRoot
  | workers
  | maxBatchSize
  | size
  deriving DecidableEq, Repr

namespace Switch

def long : Switch → String
  | .json => "progress-json"
  | .logLevel => "log-level"
  | .config => "config"
  | .catalogRoot => "dats"
  | .workers => "workers"
  | .maxBatchSize => "max-batch-size"
  | .size => "size"

def short? : Switch → Option Char
  | .workers => some 'w'
  | _ => none

def takesValue : Switch → Bool
  | .json => false
  | _ => true

def common : List Switch := [.json, .logLevel, .config]

end Switch

inductive ActionName where
  | refresh
  | lookup
  | indexStats
  | depotStats
  deriving DecidableEq, Repr

namespace ActionName

def ofString? : String → Option ActionName
  | "refresh-dats" => some .refresh
  | "lookup" => some .lookup
  | "dbstats" => some .indexStats
  | "depot-stats" => some .depotStats
  | _ => none

def switches : ActionName → List Switch
  | .refresh => Switch.common ++ [.catalogRoot, .workers, .maxBatchSize]
  | .lookup => Switch.common ++ [.size]
  | _ => Switch.common

end ActionName

inductive Misuse where
  | unknownSwitch (text : String)
  | missingValue (s : Switch)
  | unexpectedValue (s : Switch)
  | invalidValue (s : Switch) (text : String)
  | repeated (s : Switch)
  | unexpectedWord (text : String)
  | unknownAction (text : String)
  | noAction
  | noHash
  deriving DecidableEq, Repr

def Misuse.message : Misuse → String
  | .unknownSwitch t => "unexpected argument '" ++ t ++ "' found"
  | .missingValue s => "a value is required for '--" ++ s.long ++ "'"
  | .unexpectedValue s => "unexpected value for '--" ++ s.long ++ "'"
  | .invalidValue s t => "invalid value '" ++ t ++ "' for '--" ++ s.long ++ "'"
  | .repeated s => "the argument '--" ++ s.long ++ "' cannot be used multiple times"
  | .unexpectedWord t => "unexpected argument '" ++ t ++ "' found"
  | .unknownAction t => "unrecognized subcommand '" ++ t ++ "'"
  | .noAction => "a subcommand is required"
  | .noHash => "at least one hash is required"

/-- What one argument, or a switch with its value, stands for. -/
inductive Item where
  | switch (s : Switch) (value : String)
  | word (text : String)
  | help
  deriving DecidableEq, Repr

def levelNames : List String := ["error", "warn", "info", "debug", "trace"]

def isLevel (s : String) : Bool :=
  match Numeral.natural 10 Numeral.max64 s.toList with
  | .ok n => 1 ≤ n && n ≤ levelNames.length
  | .error _ => levelNames.contains s.toLower

def isWord64 (s : String) : Bool := (Numeral.natural 10 Numeral.max64 s.toList).toOption.isSome

def Switch.admits : Switch → String → Bool
  | .json, _ => true
  | .logLevel, v => isLevel v
  | .config, v | .catalogRoot, v => !v.isEmpty
  | .workers, v | .maxBatchSize, v | .size, v => isWord64 v

def checked (s : Switch) (value : String) : Except Misuse Item :=
  if s.admits value then .ok (.switch s value) else .error (.invalidValue s value)

def isValue (arg : String) : Bool := arg.toList.head? != some '-' || arg == "-"

def detached (s : Switch) : List String → Except Misuse (Item × List String)
  | v :: rest =>
    if isValue v then (checked s v).map fun i => (i, rest) else .error (.missingValue s)
  | [] => .error (.missingValue s)

/-- An argument that begins with two dashes: the name, and perhaps a value behind an equals sign. -/
def longItem (known : List Switch) (body : List Char) (rest : List String) :
    Except Misuse (Item × List String) :=
  let name := String.ofList (body.takeWhile (· != '='))
  match known.find? fun s => s.long == name, body.dropWhile (· != '=') with
  | some s, [] => if s.takesValue then detached s rest else .ok (.switch s "", rest)
  | some s, _ :: value =>
    if s.takesValue then (checked s (String.ofList value)).map fun i => (i, rest)
    else .error (.unexpectedValue s)
  | none, [] =>
    if name = "help" then .ok (.help, rest) else .error (.unknownSwitch ("--" ++ name))
  | none, _ => .error (.unknownSwitch ("--" ++ name))

/-- An argument that begins with one dash: a letter, and perhaps a value, with or without an equals
sign. -/
def shortItem (known : List Switch) (c : Char) (body : List Char) (rest : List String) :
    Except Misuse (Item × List String) :=
  match known.find? fun s => s.short? == some c, body with
  | some s, [] => detached s rest
  | some s, '=' :: value => (checked s (String.ofList value)).map fun i => (i, rest)
  | some s, value => (checked s (String.ofList value)).map fun i => (i, rest)
  | none, _ =>
    if c = 'h' then .ok (.help, rest) else .error (.unknownSwitch (String.ofList ['-', c]))

def nextItem (known : List Switch) (arg : String) (rest : List String) :
    Except Misuse (Item × List String) :=
  match arg.toList with
  | '-' :: '-' :: body => longItem known body rest
  | '-' :: c :: body => shortItem known c body rest
  | _ => .ok (.word arg, rest)

theorem detached_shorter {s : Switch} {args rest : List String} {i : Item}
    (h : detached s args = .ok (i, rest)) : rest.length < args.length := by
  unfold detached at h
  split at h
  · split at h
    · next v tail _ =>
      match hc : checked s v, h with
      | .ok _, h =>
        injection h with h
        injection h with _ h
        simp [← h]
    · cases h
  · cases h

theorem of_checked {s : Switch} {v : String} {rest r : List String} {i : Item}
    (h : (checked s v).map (fun i => (i, rest)) = .ok (i, r)) : r = rest := by
  match hc : checked s v, h with
  | .ok _, h =>
    injection h with h
    injection h with _ h
    exact h.symm

theorem longItem_le {known : List Switch} {body : List Char} {args rest : List String} {i : Item}
    (h : longItem known body args = .ok (i, rest)) : rest.length ≤ args.length := by
  unfold longItem at h
  simp only at h
  split at h
  · split at h
    · exact Nat.le_of_lt (detached_shorter h)
    · injection h with h
      injection h with _ h
      exact h ▸ Nat.le_refl _
  · split at h
    · exact of_checked h ▸ Nat.le_refl _
    · cases h
  · split at h
    · injection h with h
      injection h with _ h
      exact h ▸ Nat.le_refl _
    · cases h
  · cases h

theorem shortItem_le {known : List Switch} {c : Char} {body : List Char} {args rest : List String}
    {i : Item} (h : shortItem known c body args = .ok (i, rest)) : rest.length ≤ args.length := by
  unfold shortItem at h
  split at h
  · exact Nat.le_of_lt (detached_shorter h)
  · exact of_checked h ▸ Nat.le_refl _
  · exact of_checked h ▸ Nat.le_refl _
  · split at h
    · injection h with h
      injection h with _ h
      exact h ▸ Nat.le_refl _
    · cases h

theorem nextItem_le {known : List Switch} {arg : String} {args rest : List String} {i : Item}
    (h : nextItem known arg args = .ok (i, rest)) : rest.length ≤ args.length := by
  unfold nextItem at h
  split at h
  · exact longItem_le h
  · exact shortItem_le h
  · injection h with h
    injection h with _ h
    exact h ▸ Nat.le_refl _

/-- What has been given on one side of the action. -/
structure Given where
  switches : List (Switch × String)
  words : List String
  deriving DecidableEq, Repr

namespace Given

def nothing : Given := ⟨[], []⟩

def value? (g : Given) (s : Switch) : Option String := g.switches.lookup s

def number? (g : Given) (s : Switch) : Option UInt64 :=
  (g.value? s).bind fun v =>
    (Numeral.natural 10 Numeral.max64 v.toList).toOption.map UInt64.ofNat

end Given

def givenBehind (known : List Switch) (takesWords : Bool) (g : Given) (args : List String) :
    Except Misuse (Option Given) :=
  match args with
  | [] => .ok (some g)
  | arg :: rest =>
    if arg = "--" then
      match takesWords, rest with
      | false, w :: _ => .error (.unexpectedWord w)
      | _, _ => .ok (some { g with words := g.words ++ rest })
    else
      match _h : nextItem known arg rest with
      | .error e => .error e
      | .ok (.help, _) => .ok none
      | .ok (.word w, rest) =>
        if takesWords then givenBehind known takesWords { g with words := g.words ++ [w] } rest
        else .error (.unexpectedWord w)
      | .ok (.switch s v, rest) =>
        if (g.value? s).isSome then .error (.repeated s)
        else givenBehind known takesWords { g with switches := g.switches ++ [(s, v)] } rest
termination_by args.length
decreasing_by
  all_goals exact Nat.lt_succ_of_le (nextItem_le _h)

inductive Action where
  | refresh (catalogRoot : Option String) (workers maxBatchSize : Option UInt64)
  | lookup (hashes : List String) (size : Option UInt64)
  | indexStats
  | depotStats
  deriving DecidableEq, Repr

structure Arguments where
  json : Bool
  config : Option String
  action : Action
  deriving DecidableEq, Repr

def action (n : ActionName) (g : Given) : Except Misuse Action :=
  match n with
  | .refresh =>
    .ok (.refresh (g.value? .catalogRoot) (g.number? .workers) (g.number? .maxBatchSize))
  | .lookup =>
    if g.words.isEmpty then .error .noHash else .ok (.lookup g.words (g.number? .size))
  | .indexStats => .ok .indexStats
  | .depotStats => .ok .depotStats

def argumentsBehind (front : Given) (name : String) (rest : List String) :
    Except Misuse (Option Arguments) :=
  match ActionName.ofString? name with
  | none => if name = "help" then .ok none else .error (.unknownAction name)
  | some n =>
    match givenBehind n.switches (n == .lookup) .nothing rest with
    | .error e => .error e
    | .ok none => .ok none
    | .ok (some g) =>
      (action n g).map fun a => some
        { json := (g.value? .json).isSome || (front.value? .json).isSome
          config := (g.value? .config).or (front.value? .config)
          action := a }

def argumentsFrom (front : Given) (args : List String) : Except Misuse (Option Arguments) :=
  match args with
  | [] => .error .noAction
  | arg :: rest =>
    if arg = "--" then
      match rest with
      | [] => .error .noAction
      | w :: _ => .error (.unexpectedWord w)
    else
      match _h : nextItem Switch.common arg rest with
      | .error e => .error e
      | .ok (.help, _) => .ok none
      | .ok (.word w, rest) => argumentsBehind front w rest
      | .ok (.switch s v, rest) =>
        if (front.value? s).isSome then .error (.repeated s)
        else argumentsFrom { front with switches := front.switches ++ [(s, v)] } rest
termination_by args.length
decreasing_by exact Nat.lt_succ_of_le (nextItem_le _h)

def Arguments.parse (args : List String) : Except Misuse (Option Arguments) :=
  argumentsFrom .nothing args

end RomLedger.Command
