import RomLedger.Proofs.Work.Moves
import RomLedger.Work.Schedule

/- Runs end. Every move but setting the stop flag uses up some of the work that a state still holds, which is
   bounded at the start by the visits and the workers. -/
namespace RomLedger.Crew

variable {ω σ ε : Type}

def Post.toDo : Post ω → Nat
  | .vacant => 3
  | .open_ _ => 2
  | .closing _ => 1
  | .absent | .closed => 0

namespace State

def toDo (s : State ω σ ε) : Nat :=
  (match s.walk with | some visits => 2 * visits.length + 1 | none => 0) + s.queue.length
    + total Post.toDo s.posts

/-- Workers leave a walk that goes on only when they are told to stop. -/
def Orderly (s : State ω σ ε) : Prop :=
  s.walk ≠ none → s.stopping = false → ∀ p ∈ s.posts, p.isOpen ∨ p = .vacant ∨ p = .absent

end State

theorem moved_toDo {c : Crew ω σ ε} {s t : State ω σ ε} (moved : Moved c s t) : t.toDo < s.toDo := by
  cases moved with
  | walked walk => simp [State.toDo, walk]
  | cut walk _ =>
    simp only [State.toDo, walk]
    omega
  | passed walk _ _ =>
    simp only [State.toDo, walk, List.length_cons]
    omega
  | abandoned walk _ _ _ =>
    simp only [State.toDo, walk]
    omega
  | found walk _ _ _ =>
    simp only [State.toDo, walk, List.length_cons, List.length_append, List.length_nil]
    omega
  | @hired i w shared post _ =>
    have := total_set Post.toDo post (.open_ w)
    simp only [State.toDo, Post.toDo] at this ⊢
    omega
  | refused post _ =>
    have := total_set Post.toDo post .absent
    simp only [State.toDo, Post.toDo] at this ⊢
    omega
  | @left i w post _ _ =>
    have := total_set Post.toDo post (.closing w)
    simp only [State.toDo, Post.toDo] at this ⊢
    omega
  | @dropped i w f rest post queue _ =>
    have := total_set Post.toDo post (.closing w)
    simp only [State.toDo, Post.toDo, queue, List.length_cons] at this ⊢
    omega
  | @done i w p size rest a post queue _ _ _ =>
    have := total_set Post.toDo post (.open_ a.worker)
    simp only [State.toDo, Post.toDo, queue, List.length_cons] at this ⊢
    omega
  | @failed i w p size rest a e post queue _ _ _ =>
    have := total_set Post.toDo post (.open_ a.worker)
    simp only [State.toDo, Post.toDo, queue, List.length_cons] at this ⊢
    omega
  | closed post _ =>
    have := total_set Post.toDo post .closed
    simp only [State.toDo, Post.toDo] at this ⊢
    omega
  | spoiled post _ =>
    have := total_set Post.toDo post .closed
    simp only [State.toDo, Post.toDo] at this ⊢
    omega

theorem orderly_moved {c : Crew ω σ ε} {s t : State ω σ ε} (orderly : s.Orderly) (moved : Moved c s t) :
    t.Orderly := by
  have kept {i : Nat} {q : Post ω} (walk : s.walk ≠ none) (going : s.stopping = false)
      (new : q.isOpen ∨ q = .vacant ∨ q = .absent) :
      ∀ p ∈ s.posts.set i q, p.isOpen ∨ p = .vacant ∨ p = .absent :=
    forall_posts_set (orderly walk going) new
  cases moved with
  | walked _ | cut _ _ | abandoned _ _ _ _ => exact fun more => absurd rfl more
  | passed walk going _ | found walk going _ _ => exact fun _ _ => orderly (by simp [walk]) going
  | hired _ _ => exact fun more going => kept more going (.inl rfl)
  | refused _ _ => exact fun more going => kept more going (.inr (.inr rfl))
  | left _ _ ended => exact fun more => absurd ended more
  | dropped _ _ stopped => exact fun _ going => absurd stopped (by simpa using going)
  | done _ _ going _ _ | failed _ _ going _ _ => exact fun more _ => kept more going (.inl rfl)
  | closed post _ | spoiled post _ =>
    intro more going
    have := orderly more going _ (List.mem_of_getElem? post)
    simp [Post.isOpen] at this

theorem step_open {c : Crew ω σ ε} {s : State ω σ ε} {i : Nat} {p : Post ω} (post : s.posts[i]? = some p)
    (opened : p.isOpen) (ready : s.queue ≠ [] ∨ s.walk = none) : ∃ t, c.step s (.work i) = some t := by
  cases p with
  | open_ w =>
    simp only [step, workerMove, post, take]
    split
    · rename_i empty
      simp [ready.resolve_left (not_not_intro empty)]
    · split
      · exact ⟨_, rfl⟩
      · split <;> exact ⟨_, rfl⟩
  | vacant | absent | closing w | closed => cases opened

theorem post_of_findIdx? {posts : List (Post ω)} {P : Post ω → Bool} {i : Nat}
    (found : posts.findIdx? P = some i) : ∃ p, posts[i]? = some p ∧ P p = true := by
  obtain ⟨bound, holds, _⟩ := List.findIdx?_eq_some_iff_getElem.mp found
  exact ⟨posts[i], List.getElem?_eq_getElem bound, holds⟩

theorem visit_isSome {c : Crew ω σ ε} {s : State ω σ ε} (orderly : s.Orderly) (walk : s.walk ≠ none)
    (idle : s.queue = [] ∨ ∀ p ∈ s.posts, p.isOpen = false)
    (hired : ∀ p ∈ s.posts, p.isVacant = false) : ∃ t, c.visit s = some t := by
  have room (going : s.stopping = false) (present : ¬s.posts.all Post.isGone) :
      s.queue.length < s.capacity := by
    obtain ⟨p, member, here⟩ : ∃ p ∈ s.posts, p.isGone = false := by simpa using present
    have some_post : 0 < s.posts.length := List.length_pos_of_mem member
    rcases idle with empty | closed
    · simp only [empty, List.length_nil, State.capacity, queueDepth]
      omega
    · rcases orderly walk going p member with opened | rfl | rfl
      · simp [closed p member] at opened
      · exact absurd (hired _ member) nofun
      · exact absurd here nofun
  unfold visit
  split
  · rename_i ended
    exact absurd ended walk
  · exact ⟨_, rfl⟩
  · split
    · exact ⟨_, rfl⟩
    · rename_i going
      rw [Bool.not_eq_true] at going
      split
      · split
        · exact ⟨_, rfl⟩
        · split
          · exact ⟨_, rfl⟩
          · rename_i present
            rw [if_pos (room going present)]
            exact ⟨_, rfl⟩
      · exact ⟨_, rfl⟩

theorem step_promptMove {c : Crew ω σ ε} {s : State ω σ ε} (orderly : s.Orderly)
    (busy : s.isOver = false) : ∃ t, c.step s (promptMove s) = some t := by
  unfold promptMove
  split
  · rename_i i first
    obtain ⟨p, post, vacant⟩ := post_of_findIdx? first
    cases p with
    | vacant =>
      simp only [step, workerMove, post]
      split <;> exact ⟨_, rfl⟩
    | open_ w | absent | closing w | closed => cases vacant
  · rename_i no_vacant
    have hired := List.findIdx?_eq_none_iff.mp no_vacant
    split
    · rename_i f rest i queue first
      obtain ⟨p, post, opened⟩ := post_of_findIdx? first
      exact step_open post opened (.inl (by simp [queue]))
    · rename_i other
      split
      · rename_i more
        refine visit_isSome orderly (Option.isSome_iff_ne_none.mp more) ?_ hired
        cases queue : s.queue with
        | nil => exact .inl rfl
        | cons f rest =>
          refine .inr (List.findIdx?_eq_none_iff.mp ?_)
          cases first : s.posts.findIdx? Post.isOpen with
          | none => rfl
          | some i => exact absurd first (other f rest i queue)
      · rename_i ended
        have ended : s.walk = none := by simpa using ended
        have some_left : s.posts.any (fun p => !p.isGone) = true := by
          simpa [State.isOver, ended] using busy
        rw [← List.findIdx?_isSome] at some_left
        obtain ⟨j, first⟩ := Option.isSome_iff_exists.mp some_left
        obtain ⟨p, post, left⟩ := post_of_findIdx? first
        simp only [first, Option.getD_some]
        cases p with
        | open_ w => exact step_open post rfl (.inr ended)
        | closing w =>
          simp only [step, workerMove, post]
          exact ⟨_, rfl⟩
        | vacant =>
          have hired := hired _ (List.mem_of_getElem? post)
          cases hired
        | absent | closed => cases left

theorem promptMove_ne_stop (s : State ω σ ε) : promptMove s ≠ .stop := by
  unfold promptMove
  split
  · nofun
  · split
    · nofun
    · split <;> nofun

theorem isOver_promptMoves {c : Crew ω σ ε} {budget : Nat} {s : State ω σ ε} (orderly : s.Orderly)
    (enough : s.toDo ≤ budget) : (c.run s (promptMoves c budget s)).isOver = true := by
  induction budget generalizing s with
  | zero =>
    have nothing := Nat.le_zero.mp enough
    simp only [State.toDo, Nat.add_eq_zero_iff] at nothing
    have ended : s.walk = none := by
      cases walk : s.walk with
      | none => rfl
      | some visits => simp [walk] at nothing
    have gone : s.posts.all Post.isGone = true := by
      refine List.all_eq_true.mpr fun p member => ?_
      have := le_total Post.toDo member
      cases p <;> simp_all [Post.toDo, Post.isGone]
    simp [promptMoves, run, State.isOver, ended, gone]
  | succ budget ih =>
    unfold promptMoves
    split
    · assumption
    · rename_i busy
      rw [Bool.not_eq_true] at busy
      obtain ⟨t, moved⟩ := step_promptMove (c := c) orderly busy
      have effect := moved_of_step (promptMove_ne_stop s) moved
      have less := moved_toDo effect
      simp only [run, List.foldl_cons, moved, Option.getD_some]
      exact ih (orderly_moved orderly effect) (by omega)

theorem toDo_start (root : Path) (workers : Nat) (visits : List Visit) (stopping : Bool) (shared : σ) :
    (start root workers visits stopping shared : State ω σ ε).toDo
      = moveBound workers visits.length := by
  have posts : total (Post.toDo (ω := ω)) (List.replicate (max 1 workers) .vacant) = 3 * max 1 workers := by
    induction max 1 workers with
    | zero => rfl
    | succ n ih =>
      simp only [List.replicate_succ, total, Post.toDo, ih]
      omega
  simp only [State.toDo, start, moveBound, List.length_nil, posts]
  omega

theorem orderly_start (root : Path) (workers : Nat) (visits : List Visit) (stopping : Bool)
    (shared : σ) : (start root workers visits stopping shared : State ω σ ε).Orderly :=
  fun _ _ _ member => .inr (.inl (List.mem_replicate.mp member).2)

/-- Working through a tree is a run that is over, and what is left of it. -/
theorem exists_run_of_work (c : Crew ω σ ε) (root : Path) (workers : Nat) (visits : List Visit)
    (stopping : Bool) (shared : σ) :
    ∃ ms, (c.run (start root workers visits stopping shared) ms).isOver = true ∧
      c.work root workers visits stopping shared
        = c.conclude (c.run (start root workers visits stopping shared) ms) :=
  ⟨_, isOver_promptMoves (orderly_start root workers visits stopping shared)
    (Nat.le_of_eq (toDo_start ..)), rfl⟩

end RomLedger.Crew
