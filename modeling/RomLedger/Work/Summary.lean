import RomLedger.Decimal.Fixed
import RomLedger.Work.Progress

/- The counts of a finished walk with the time it took. -/
namespace RomLedger

/-- A time span; there are a billion nanoseconds to a second, and fewer than that beside them. -/
structure Span where
  seconds : UInt64
  nanos : UInt32
  deriving DecidableEq, Repr

namespace Span

def billion : Nat := 1000000000

def ofParts (seconds nanos : Nat) : Span :=
  ⟨UInt64.ofNat (seconds + nanos / billion), UInt32.ofNat (nanos % billion)⟩

def toFloat (s : Span) : Float := s.seconds.toFloat + s.nanos.toFloat / 1e9

def millis (s : Span) : Nat := s.seconds.toNat * 1000 + s.nanos.toNat / 1000000

end Span

structure Summary where
  counts : Counts
  elapsed : Span
  deriving DecidableEq, Repr

namespace Summary

def filesPerSecond (s : Summary) : Float :=
  let t := s.elapsed.toFloat
  if t > 0 then s.counts.processed.toFloat / t else 0

def sentence (c : Counts) (seconds : String) : String :=
  s!"processed {c.processed.toNat} of {c.discovered.toNat} files "
    ++ s!"({c.failed.toNat} failed, {c.bytes.toNat} bytes) in "
    ++ seconds ++ "s" ++ (if c.cancelled then ", cancelled" else "")

def shown (s : Summary) : String := sentence s.counts (Decimal.onePlace s.elapsed.toFloat)

end Summary
end RomLedger
