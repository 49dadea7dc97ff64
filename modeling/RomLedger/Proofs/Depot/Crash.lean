import Mathlib.Order.Monotone.Basic
import RomLedger.Proofs.Depot.Reopening

/-!
A depot whose process dies while it is flushed. Every checkpoint is written in place, so that the one which
was being written holds a beginning of the new size, and the others hold the size from before the flush or the
new one. The depot opens again unless that beginning is no number: it is none if nothing of the size was
written, or only its sign.
-/
namespace RomLedger.Depot

open Disk Root

variable {σ : Type} {d d' d₀ : Disk σ} {place : RootConfig → Place} {c : RootConfig} {cs : List RootConfig}
  {r : Root} {rs : List Root} {depot : Depot}

theorem outcomes_flush (kept : Kept d (place c) c r) (home : Home d (.ofString c.path) (place c)) :
    ∃ used, used ≤ 3 ∧ (Root.flush d r).2.2.ahead = d.ahead.drop used ∧
      (checkpoint? (Root.flush d r).2.2 (place c) = checkpoint? d (place c) ∨
        0 < used ∧ checkpoint? (Root.flush d r).2.2 (place c) =
          Outcome.landed (checkpoint? d (place c)) (Generation.render r.size) d.outcome.1) := by
  cases touched : r.touched with
  | false =>
    rw [flush_untouched touched]
    exact ⟨0, Nat.zero_le 3, rfl, .inl rfl⟩
  | true =>
    obtain ⟨used, some_, few, ahead, landed⟩ := checkpoint_flush kept home touched
    exact ⟨used, few, ahead, .inr ⟨some_, landed⟩⟩

def spentBefore (used : Nat) (later : Nat → Nat) : Nat → Nat
  | 0 => 0
  | k + 1 => used + later k

theorem checkpoints_flushAll (kept : KeptAll d place cs rs) (homes : Homes d place cs)
    (apart : (cs.map place).Nodup) :
    ∃ spent : Nat → Nat, Monotone spent ∧ ∀ k c r, cs[k]? = some c → rs[k]? = some r → spent k ≤ 3 * k ∧
      (checkpoint? (flushAll d rs).2.2 (place c) = checkpoint? d (place c) ∨
        spent k < spent (k + 1) ∧ checkpoint? (flushAll d rs).2.2 (place c) =
          Outcome.landed (checkpoint? d (place c)) (Generation.render r.size)
            (d.ahead.getD (spent k) .done)) := by
  induction cs generalizing d rs with
  | nil => exact ⟨id, monotone_id, nofun⟩
  | cons c cs ih =>
    cases kept with
    | @cons _ r _ rs one kept =>
      obtain ⟨new, apart⟩ := List.nodup_cons.mp apart
      have home := homes c List.mem_cons_self
      have others : Homes d place cs := fun c' member => homes c' (List.mem_cons_of_mem c member)
      obtain ⟨differs, -, -⟩ := one.flush home
      have unchanged := flush_spares one home new
      have rest := kept.congr unchanged
      obtain ⟨later, mono, decided⟩ := ih rest (others.differs differs) apart
      have own : checkpoint? (flushAll d (r :: rs)).2.2 (place c) = checkpoint? (Root.flush d r).2.2 (place c) :=
        checkpoint?_congr (flushAll_spares rest (others.differs differs) apart new _ List.mem_cons_self)
      obtain ⟨used, few, ahead, first⟩ := outcomes_flush one home
      refine ⟨spentBefore used later, monotone_nat_of_le_succ ?_, ?_⟩
      · intro k
        cases k with
        | zero => exact Nat.zero_le _
        | succ k => exact Nat.add_le_add_left (mono (Nat.le_succ k)) used
      · intro k c' r' config root
        cases k with
        | zero =>
          cases config
          cases root
          refine ⟨Nat.zero_le _, first.imp own.trans ?_⟩
          rintro ⟨some_, landed⟩
          refine ⟨Nat.lt_add_right _ some_, ?_⟩
          rw [own, landed]
          unfold Disk.outcome
          rcases d.ahead with _ | ⟨o, more⟩ <;> rfl
        | succ k =>
          obtain ⟨bound, result⟩ := decided k c' r' config root
          have before : checkpoint? (Root.flush d r).2.2 (place c') = checkpoint? d (place c') :=
            checkpoint?_congr (unchanged c' (List.mem_of_getElem? config) _ List.mem_cons_self)
          refine ⟨by simp only [spentBefore]; omega, ?_⟩
          rw [before] at result
          refine result.imp id ?_
          rintro ⟨advance, landed⟩
          refine ⟨Nat.add_lt_add_left advance used, landed.trans ?_⟩
          rw [ahead]
          simp [List.getD_eq_getElem?_getD, spentBefore]

def leaving : Option Nat → Remains
  | none => .unchanged
  | some n => .beginning n

/-- The outcomes of a run that stops: some writes and renames are done, the next one leaves something
behind, and none of the others happens. -/
def stopping (count : Nat) (left : Remains) (others : Nat) : List Outcome :=
  List.replicate count .done ++ .failed left :: List.replicate others (.failed .unchanged)

theorem getD_stopping {count others i : Nat} (within_ : i ≤ count + others) (left : Remains) :
    (stopping count left others).getD i .done =
      if i < count then .done else if i = count then .failed left else .failed .unchanged := by
  rw [stopping, List.getD_eq_getElem?_getD]
  split
  · rename_i before
    rw [List.getElem?_append_left (by simpa using before)]
    simp [before]
  · rw [List.getElem?_append_right (by simp; omega), List.length_replicate]
    split
    · rename_i same
      simp [same]
    · obtain ⟨j, later⟩ : ∃ j, i - count = j + 1 := ⟨i - count - 1, by omega⟩
      have inside : j < others := by omega
      simp [later, inside]

def doomed (d : Disk σ) (count : Nat) (begun : Option Nat) (others : Nat) : Disk σ :=
  { d with ahead := stopping count (leaving begun) others }

def crash (d : Disk σ) (depot : Depot) (count : Nat) (begun : Option Nat) : Disk σ :=
  (flush (doomed d count begun (3 * depot.roots.length)) depot).2.2

theorem Homes.doomed (homes : Homes d place cs) (count : Nat) (begun : Option Nat) (others : Nat) :
    Homes (doomed d count begun others) place cs :=
  homes.differs (differs_ahead d _ _ homes.plain)

theorem KeptAll.doomed (kept : KeptAll d place cs rs) (count : Nat) (begun : Option Nat) (others : Nat) :
    KeptAll (doomed d count begun others) place cs rs :=
  kept.congr fun _ _ _ _ => rfl

theorem homes_crash (kept : KeptAll d place cs depot.roots) (homes : Homes d place cs)
    (apart : (cs.map place).Nodup) (count : Nat) (begun : Option Nat) :
    Homes (crash d depot count begun) place cs := by
  have start := homes.doomed count begun (3 * depot.roots.length)
  obtain ⟨differs, -, -⟩ := kept_flushAll (kept.doomed count begun _) start apart
  exact start.differs differs

theorem exists_leaving {spent : Nat → Nat} (mono : Monotone spent) (count : Nat) :
    ∃ t, ∀ k, spent k = count → spent k < spent (k + 1) → k = t := by
  by_cases any : ∃ t, spent t = count ∧ spent t < spent (t + 1)
  · obtain ⟨t, there, advance⟩ := any
    refine ⟨t, ?_⟩
    intro k here step
    rcases Nat.lt_trichotomy k t with before | same | after
    · have := mono (show k + 1 ≤ t by omega)
      omega
    · exact same
    · have := mono (show t + 1 ≤ k by omega)
      omega
  · exact ⟨0, fun k here step => absurd ⟨k, here, step⟩ any⟩

theorem checkpoints_crash (kept : KeptAll d place cs depot.roots) (homes : Homes d place cs)
    (apart : (cs.map place).Nodup) (count : Nat) (begun : Option Nat) :
    ∃ t, ∀ (k : Nat) c r, cs[k]? = some c → depot.roots[k]? = some r →
      let left := checkpoint? (crash d depot count begun) (place c)
      left = checkpoint? d (place c) ∨ left = some (Generation.render r.size) ∨
        k = t ∧ ∃ n, begun = some n ∧ left = some ((Generation.render r.size).take n) := by
  obtain ⟨spent, mono, decided⟩ := checkpoints_flushAll (kept.doomed count begun (3 * depot.roots.length))
    (homes.doomed count begun _) apart
  -- no two roots take the outcome at which everything stops
  obtain ⟨t, only⟩ := exists_leaving mono count
  refine ⟨t, ?_⟩
  intro k c r config root
  obtain ⟨bound, result⟩ := decided k c r config root
  have inside : k < depot.roots.length := (List.getElem?_eq_some_iff.mp root).1
  dsimp only
  rcases result with same | ⟨advance, landed⟩
  · exact .inl same
  · change _ = Outcome.landed _ _ ((stopping count (leaving begun) _).getD (spent k) .done) at landed
    rw [getD_stopping (by omega)] at landed
    split at landed
    · exact .inr (.inl landed)
    · split at landed
      · rename_i here
        cases begun with
        | none => exact .inl landed
        | some n => exact .inr (.inr ⟨only k here advance, n, rfl, landed⟩)
      · exact .inl landed

theorem loadAll_onDisk (homes : Homes d place cs) (there : ∀ c ∈ cs, (checkpoint? d (place c)).isSome) :
    (loadAll d cs).2 = d ∧ (loadAll d cs).1.toOption = cs.mapM fun c => onDisk? d (place c) c := by
  induction cs with
  | nil => exact ⟨rfl, rfl⟩
  | cons c cs ih =>
    obtain ⟨same, first⟩ := load_onDisk (homes c List.mem_cons_self) (there c List.mem_cons_self)
    obtain ⟨same', rest⟩ := ih (fun c' member => homes c' (List.mem_cons_of_mem c member))
      (fun c' member => there c' (List.mem_cons_of_mem c member))
    rw [List.mapM_cons, ← first, ← rest, loadAll]
    rcases loaded : Root.load d c with ⟨_ | r, e⟩ <;> rw [loaded] at same <;> obtain rfl : e = d := same
    · exact ⟨rfl, rfl⟩
    · refine ⟨same', ?_⟩
      dsimp only
      rcases loadAll e cs with ⟨_ | others, e'⟩ <;> rfl

theorem load_eq (d : Disk σ) (cs : List RootConfig) :
    load d cs = ((loadAll d cs).1.map Depot.mk, (loadAll d cs).2) := rfl

/-- What a crash during a flush leaves of a depot whose roots all have a checkpoint. Every size is read as it
was before the flush, or as it was to be written; but for the root in whose checkpoint the process died, whose
size is read as the beginning that was written. Opening gives what is read, and fails if a size is not. -/
theorem sizes_after_crash (loaded : load d₀ cs = (.ok depot, d)) (homes : Homes d place cs)
    (apart : (cs.map place).Nodup) (ops : List Op)
    (there : ∀ c ∈ cs, (checkpoint? (run (depot, d) ops).2 (place c)).isSome) (count : Nat)
    (begun : Option Nat) :
    let s := run (depot, d) ops
    let after := crash s.2 s.1 count begun
    (∃ t, ∀ (k : Nat) c r, cs[k]? = some c → s.1.roots[k]? = some r →
      size? after (place c) = size? s.2 (place c) ∨ size? after (place c) = some r.size ∨
        k = t ∧ ∃ n, begun = some n ∧ size? after (place c) = Numeral.cut? r.size n) ∧
    (load after cs).2 = after ∧
    (load after cs).1.toOption.map Depot.roots = cs.mapM fun c => onDisk? after (place c) c := by
  intro s after
  obtain ⟨homes', kept⟩ := (faithful_of_load loaded homes).run apart ops
  obtain ⟨t, written⟩ := checkpoints_crash kept homes' apart count begun
  have there' : ∀ c ∈ cs, (checkpoint? after (place c)).isSome := by
    intro c member
    obtain ⟨k, config⟩ := List.mem_iff_getElem?.mp member
    have inside : k < s.1.roots.length := by
      rw [kept.length_eq]
      exact (List.getElem?_eq_some_iff.mp config).1
    rcases written k c _ config (List.getElem?_eq_getElem inside) with same | new | ⟨-, n, -, torn⟩
    · exact same ▸ there c member
    · exact Option.isSome_of_eq_some new
    · exact Option.isSome_of_eq_some torn
  obtain ⟨same, opened⟩ := loadAll_onDisk (homes_crash kept homes' apart count begun) there'
  refine ⟨⟨t, ?_⟩, same, ?_⟩
  · intro k c r config root
    have holds := (kept.get config root).holds
    rcases written k c r config root with same | new | ⟨here, n, begins, torn⟩
    · exact .inl (congrArg Generation.number? same)
    · exact .inr (.inl ((congrArg Generation.number? new).trans (Generation.number?_render holds)))
    · refine .inr (.inr ⟨here, n, begins, ?_⟩)
      exact (congrArg Generation.number? torn).trans (Generation.number?_take holds n)
  · rw [← opened, load_eq]
    cases (loadAll after cs).1 <;> rfl

def resized : List Op := [.adjust 0 15 none, .adjust 1 7 none, .flush, .adjust 0 19 none]

def afterResized : Depot × Disk Unit :=
  run (⟨[⟨.ofString "a", 1000, 0, false, none⟩, ⟨.ofString "b", 1000, 0, false, none⟩]⟩,
    (load .empty twoRoots).2) resized

theorem sizes_after_crash_two_roots :
    let after := crash afterResized.2 afterResized.1 0 (some 1)
    (load after twoRoots).2 = after ∧ (load after twoRoots).1.toOption.map Depot.roots =
      some [⟨.ofString "a", 1000, 3, false, none⟩, ⟨.ofString "b", 1000, 7, false, none⟩] := by
  have loaded : load (.empty : Disk Unit) twoRoots = (.ok ⟨[⟨.ofString "a", 1000, 0, false, none⟩,
    ⟨.ofString "b", 1000, 0, false, none⟩]⟩, (load (.empty : Disk Unit) twoRoots).2) := rfl
  have homes : Homes (load (.empty : Disk Unit) twoRoots).2 (fun c => [c.path]) twoRoots :=
    List.forall_mem_cons.mpr ⟨⟨by decide +kernel, by decide +kernel⟩,
      List.forall_mem_singleton.mpr ⟨by decide +kernel, by decide +kernel⟩⟩
  obtain ⟨-, same, opened⟩ :=
    sizes_after_crash loaded homes (by decide) resized (by decide +kernel) 0 (some 1)
  exact ⟨same, opened.trans (by decide +kernel)⟩

def openedSizes? (d : Disk σ) (cs : List RootConfig) : Option (List Int) :=
  (load d cs).1.toOption.map fun depot => depot.roots.map (·.size)

theorem lost_after_crash :
    openedSizes? afterResized.2 twoRoots = some [15, 7] ∧
      afterResized.1.roots.map (·.size) = [34, 7] ∧
      openedSizes? (crash afterResized.2 afterResized.1 0 (some 0)) twoRoots = none ∧
      openedSizes? (crash afterResized.2 afterResized.1 0 (some 1)) twoRoots = some [3, 7] := by
  decide +kernel

end RomLedger.Depot
