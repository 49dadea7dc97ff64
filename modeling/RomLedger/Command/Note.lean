import RomLedger.Json.Value
import RomLedger.Text.Basic
import RomLedger.Work.Summary

/- What a command says while it runs. A line goes to the output or to the error stream; an event goes there as
   JSON, and the closing sentence of a refresh speaks of a time that is known only when it is written. -/
namespace RomLedger.Command

inductive Note where
  | out (text : String)
  | err (text : String)
  | event (e : Event)
  | summary (c : Counts)
  deriving DecidableEq, Repr

def eventValue (elapsed : Span) : Event → Json.Value
  | .started root workers =>
    .object [("root", .text root.shown), ("type", .text "Started"), ("workers", .integer workers)]
  | .completed p size =>
    .object [("path", .text p.shown), ("size", .integer size.toNat), ("type", .text "FileCompleted")]
  | .failed p error =>
    .object [("error", .text error), ("path", .text p.shown), ("type", .text "FileFailed")]
  | .flushed worker pending =>
    .object [("pending_bytes", .integer pending), ("type", .text "BatchFlushed"),
      ("worker", .integer worker)]
  | .summary c =>
    .object [("cancelled", .bool c.cancelled), ("discovered_files", .integer c.discovered.toNat),
      ("duration_ms", .integer elapsed.millis), ("failed_files", .integer c.failed.toNat),
      ("files_per_sec", .decimal (Summary.mk c elapsed).filesPerSecond),
      ("processed_files", .integer c.processed.toNat), ("total_bytes", .integer c.bytes.toNat),
      ("type", .text "Summary")]

def eventLine (elapsed : Span) (e : Event) : String :=
  (Json.Value.object [("event", eventValue elapsed e), ("stream", .text "refresh")]).compact

def summaryLine (c : Counts) (seconds : String) : String := "Refresh " ++ Summary.sentence c seconds

/-- A cause with its number where there are several; further lines of it are indented as far. -/
def causeLines (number : Option Nat) (text : String) : List String :=
  let (first, further) := match number with
    | some n => (String.ofList (List.replicate (5 - (toString n).length) ' ') ++ s!"{n}: ", "       ")
    | none => ("    ", "    ")
  match (Text.split '\n' text.toList).map String.ofList with
  | [] => []
  | l :: more => (first ++ l) :: more.map (further ++ ·)

def numbered : Nat → List String → List String
  | _, [] => []
  | n, c :: rest => causeLines (some n) c ++ numbered (n + 1) rest

def failureLines : List String → List String
  | [] => []
  | [m] => ["Error: " ++ m]
  | [m, c] => ["Error: " ++ m, "", "Caused by:"] ++ causeLines none c
  | m :: causes => ["Error: " ++ m, "", "Caused by:"] ++ numbered 0 causes

end RomLedger.Command
