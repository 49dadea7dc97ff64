import Mathlib.Data.List.Nodup
import RomLedger.Disk.Walk

/- A walk meets no path twice. What is met inside a directory lies at a longer path, and what is met through
   two of its entries differs in the next name. Links may lead to one file at several paths. -/
namespace RomLedger

def Visit.path : Visit → Path
  | .file p _ | .directory p | .unreadable p => p

namespace Disk

variable {σ : Type} {d : Disk σ}

/-- No two entries lie at one place. -/
def Tidy (d : Disk σ) : Prop := (d.entries.map Prod.fst).Nodup

theorem places_sublist (here : Place) (entries : List (Place × Entry σ)) :
    ((entries.filterMap fun e =>
      if e.1 ≠ [] ∧ e.1.dropLast = here then e.1.getLast?.map fun n => (n, e.2) else none).map
        fun child => here ++ [child.1]).Sublist (entries.map Prod.fst) := by
  induction entries with
  | nil => exact .slnil
  | cons e rest ih =>
    rw [List.filterMap_cons]
    split
    · exact ih.cons e.1
    · rename_i child found
      split at found
      · rename_i inner
        obtain ⟨last, same, rfl⟩ := Option.map_eq_some_iff.mp found
        have place : here ++ [last] = e.1 := by
          rw [← inner.2]
          exact List.dropLast_append_getLast? last same
        simp only [List.map_cons, place]
        exact ih.cons_cons e.1
      · cases found

theorem children_apart (tidy : d.Tidy) (here : Place) : ((d.children here).map Prod.fst).Nodup := by
  refine ((List.mergeSort_perm _ _).map Prod.fst).nodup_iff.mpr ?_
  have places := tidy.sublist (places_sublist here d.entries)
  exact List.Nodup.of_map (fun name => here ++ [name]) (by rwa [List.map_map])

def through (d : Disk σ) (budget : Nat) (here : Place) (around : List Place) (p : Path)
    (child : String × Entry σ) : List Visit :=
  let q := p.join child.1
  match child.2 with
  | .dir => .directory q :: d.walkIn budget ((here ++ [child.1]) :: here :: around) q
  | .link _ =>
    match d.open? q with
    | .error _ => [.unreadable q]
    | .ok (place, .dir) =>
      if (here :: around).contains place then [.unreadable q]
      else .directory q :: d.walkIn budget (place :: here :: around) q
    | .ok (_, e) => [.file q e.size]
  | e => [.file q e.size]

theorem walkIn_succ (budget : Nat) (here : Place) (around : List Place) (p : Path) :
    d.walkIn (budget + 1) (here :: around) p = (d.children here).flatMap (d.through budget here around p) := by
  rfl

theorem through_cases (d : Disk σ) (budget : Nat) (here : Place) (around : List Place) (p : Path)
    (child : String × Entry σ) :
    (∃ v : Visit, v.path = p.join child.1 ∧ d.through budget here around p child = [v]) ∨
      ∃ chain, d.through budget here around p child
        = .directory (p.join child.1) :: d.walkIn budget chain (p.join child.1) := by
  obtain ⟨name, e⟩ := child
  cases e with
  | dir => exact .inr ⟨_, rfl⟩
  | link target =>
    unfold through
    dsimp only
    split
    · exact .inl ⟨_, rfl, rfl⟩
    · split
      · exact .inl ⟨_, rfl, rfl⟩
      · exact .inr ⟨_, rfl⟩
    · exact .inl ⟨_, rfl, rfl⟩
  | file b => exact .inl ⟨_, rfl, rfl⟩
  | store content => exact .inl ⟨_, rfl, rfl⟩

theorem below_of_mem_through {budget : Nat} {here : Place} {around : List Place} {p : Path}
    {child : String × Entry σ} {v : Visit} (met : v ∈ d.through budget here around p child) :
    ∃ rest, v.path = ⟨p.text, p.below ++ child.1 :: rest⟩ := by
  induction budget generalizing here around p child with
  | zero =>
    rcases d.through_cases 0 here around p child with ⟨w, path, only⟩ | ⟨chain, all⟩
    · rw [only, List.mem_singleton] at met
      exact ⟨[], met ▸ path⟩
    · rw [all, walkIn, List.mem_singleton] at met
      exact ⟨[], met ▸ rfl⟩
  | succ budget ih =>
    rcases d.through_cases (budget + 1) here around p child with ⟨w, path, only⟩ | ⟨chain, all⟩
    · rw [only, List.mem_singleton] at met
      exact ⟨[], met ▸ path⟩
    · rw [all, List.mem_cons] at met
      rcases met with rfl | met
      · exact ⟨[], rfl⟩
      · cases chain with
        | nil => simp [walkIn] at met
        | cons place chain =>
          rw [walkIn_succ, List.mem_flatMap] at met
          obtain ⟨inner, _, met⟩ := met
          obtain ⟨rest, path⟩ := ih met
          exact ⟨inner.1 :: rest, by simpa [Path.join] using path⟩

theorem below_of_mem_walkIn {budget : Nat} {chain : List Place} {p : Path} {v : Visit}
    (met : v ∈ d.walkIn budget chain p) : ∃ name rest, v.path = ⟨p.text, p.below ++ name :: rest⟩ := by
  cases budget with
  | zero => simp [walkIn] at met
  | succ budget =>
    cases chain with
    | nil => simp [walkIn] at met
    | cons here around =>
      rw [walkIn_succ, List.mem_flatMap] at met
      obtain ⟨child, _, met⟩ := met
      exact ⟨child.1, below_of_mem_through met⟩

theorem walkIn_apart (tidy : d.Tidy) (budget : Nat) (chain : List Place) (p : Path) :
    ((d.walkIn budget chain p).map Visit.path).Nodup := by
  induction budget generalizing chain p with
  | zero => simp [walkIn]
  | succ budget ih =>
    cases chain with
    | nil => simp [walkIn]
    | cons here around =>
      rw [walkIn_succ, List.map_flatMap, List.nodup_flatMap]
      constructor
      · intro child _
        rcases d.through_cases budget here around p child with ⟨v, _, only⟩ | ⟨inner, all⟩
        · rw [only]
          exact List.nodup_singleton _
        · rw [all, List.map_cons, List.nodup_cons]
          refine ⟨fun member => ?_, ih inner (p.join child.1)⟩
          obtain ⟨v, met, same⟩ := List.mem_map.mp member
          obtain ⟨name, rest, path⟩ := below_of_mem_walkIn met
          rw [path] at same
          simpa [Visit.path, Path.join] using congrArg Path.below same
      · have names := List.pairwise_map.mp (children_apart tidy here)
        refine names.imp fun other => List.disjoint_left.mpr fun q first second => ?_
        obtain ⟨v, met, rfl⟩ := List.mem_map.mp first
        obtain ⟨w, met', same⟩ := List.mem_map.mp second
        obtain ⟨rest, path⟩ := below_of_mem_through met
        obtain ⟨rest', path'⟩ := below_of_mem_through met'
        rw [path, path'] at same
        simp only [Path.mk.injEq, List.append_cancel_left_eq, List.cons.injEq, true_and] at same
        exact other same.1.symm

theorem walk_apart (tidy : d.Tidy) (root : Path) : ((d.walk root).map Visit.path).Nodup := by
  unfold walk
  split
  · exact List.nodup_singleton _
  · rw [List.map_cons, List.nodup_cons]
    refine ⟨fun member => ?_, walkIn_apart tidy _ _ root⟩
    obtain ⟨v, met, same⟩ := List.mem_map.mp member
    obtain ⟨name, rest, path⟩ := below_of_mem_walkIn met
    rw [path] at same
    simpa [Visit.path] using congrArg Path.below same
  · exact List.nodup_singleton _

end Disk
end RomLedger
