import RomLedger.Bytes.Sha1
import RomLedger.Proofs.Bytes.Words

/- A digest does not depend on how its bytes are divided. A hasher that takes them in parts comes to the same
   state as one that takes them at once, and it ends with the digest of all of them. -/
namespace RomLedger.Sha1

theorem length_digest (b : Bytes) : (digest b).length = 20 := by
  simp [digest, State.bytes, spread]

namespace Hasher

theorem update_append (h : Hasher) (a b : Bytes) : h.update (a ++ b) = (h.update a).update b :=
  List.foldl_append

theorem length_push (h : Hasher) (b : UInt8) : (h.push b).length = h.length + 1 := by
  unfold push
  split <;> rfl

theorem length_update (h : Hasher) (b : Bytes) : (h.update b).length = h.length + b.length := by
  induction b generalizing h with
  | nil => rfl
  | cons c rest ih =>
    have later := ih (h.push c)
    rw [length_push] at later
    rw [List.length_cons, ← Nat.add_assoc, Nat.add_right_comm]
    exact later

theorem update_word (s : State) (held : Array UInt32) (n : Nat) (a b c d : UInt8) (rest : Bytes) :
    update ⟨s, held, [], n⟩ (a :: b :: c :: d :: rest) =
      update ⟨(takeWord s held (word a b c d)).1, (takeWord s held (word a b c d)).2, [], n + 4⟩ rest := rfl

/-- Byte by byte, a hasher comes to the state that the words of all the bytes lead to. -/
theorem state_update (s : State) (held : Array UInt32) (n : Nat) (b : Bytes) :
    (update ⟨s, held, [], n⟩ b).state = absorb s held b := by
  fun_induction absorb s held b generalizing n with
  | case1 s held a b c d rest full ih =>
    rw [update_word, takeWord, if_pos full]
    exact ih (n + 4)
  | case2 s held a b c d rest room ih =>
    rw [update_word, takeWord, if_neg room]
    exact ih (n + 4)
  | case3 b s held few =>
    match b, few with
    | [], _ | [_], _ | [_, _], _ | [_, _, _], _ => rfl
    | a :: b :: c :: d :: rest, few => exact absurd rfl (few a b c d rest)

theorem finish_update (b : Bytes) : (fresh.update b).finish = digest b := by
  have counted : (fresh.update b).length = b.length := by
    rw [length_update]
    exact Nat.zero_add _
  rw [finish, counted, ← update_append, fresh, state_update, digest]

end Hasher
end RomLedger.Sha1
