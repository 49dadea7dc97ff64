import RomLedger.Proofs.Clr.Portions

/-!
A failure to read is never taken for the end of a file. However many bytes come before it, and in whatever
portions, the lexer of the text grammar never says that its text ends there, and neither format gives the
catalog of what came.
-/
namespace RomLedger

def Feed.broken (b : Bytes) (n : Nat) (portion : Nat → Nat) : Feed := ⟨b.take n, true, portion, 0⟩

example (b : Bytes) (n chunk : Nat) : Feed.steady b (some chunk) (some n) = .broken b n fun _ => chunk := rfl

namespace Clr.Lexer

theorem kept_after {α : Type} {g : Meter → α} (kept : Meter.Kept g) (k : Nat) (l : Lexer) :
    g (l.after k).reader.meter = g l.reader.meter := by
  induction k generalizing l with
  | zero => rfl
  | succ k ih => exact (ih l.next.2).trans (kept_next kept l)

theorem not_ended_of_failing {l : Lexer} (fails : l.reader.failing = true) (k : Nat) :
    (l.after k).next.1.kind ≠ .ended := by
  intro ended
  have same := (kept_next Meter.kept_failing (l.after k)).trans (kept_after Meter.kept_failing k l)
  have calm : l.reader.failing = false := same.symm.trans (complete_of_next ended).calm
  rw [fails] at calm
  cases calm

end Clr.Lexer

/-- Where a feed fails behind any of its bytes, the last one included, no token of the text says the end, and
neither format has a catalog. -/
theorem refuses_broken (b : Bytes) (n : Nat) (portion : Nat → Nat) :
    (∀ k, ((Clr.Lexer.ofReader (.ofFeed (.broken b n portion))).after k).next.1.kind ≠ .ended) ∧
      (∃ e, Clr.parse (.broken b n portion) = .error e) ∧ ∃ e, Markup.parse (.broken b n portion) = .error e := by
  have fails : (Feed.broken b n portion).failing ≠ false := Bool.noConfusion
  refine ⟨fun k => Clr.Lexer.not_ended_of_failing rfl k, ?_, ?_⟩
  · cases parsed : Clr.parse (.broken b n portion) with
    | error e => exact ⟨e, rfl⟩
    | ok read => exact absurd (Clr.calm_of_parse parsed) fails
  · cases parsed : Markup.parse (.broken b n portion) with
    | error e => exact ⟨e, rfl⟩
    | ok read => exact absurd (Markup.calm_of_parse parsed) fails

end RomLedger
