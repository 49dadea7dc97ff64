import Mathlib.Data.List.Nodup
import RomLedger.Markup.Schema
import RomLedger.Proofs.Markup.Reading
import RomLedger.Proofs.Markup.Writing

/- Elements read by a schema. -/
namespace RomLedger.Markup

open Cursor (Leads Balanced)

namespace Schema

variable {α : Type} {s : Schema α}

/-- The schema knows the attributes, and whatever writes their values it understands. -/
def Takes (s : Schema α) (as : List (String × Value)) (effect : String × Value → α → α) : Prop :=
  ∀ p ∈ as, ∃ read, s.attribute? p.1 = some read ∧ ∀ b, p.2.Writes b → read b = .ok (effect p)

variable {as : List (String × Value)} {effect : String × Value → α → α}

theorem verbatim_ofString (k : String) : Entity.verbatim (Bytes.ofString k) = .ok k := by
  rw [Entity.verbatim, Utf8.decode_ofString]

theorem fieldName_of_named {key : String} (named : Named (Bytes.ofString key)) (unbound : key ≠ "xmlns") :
    fieldName (Bytes.ofString key) = Bytes.ofString key := by
  rw [fieldName, bound?_of_named named unbound, localName_of_named named]
  rfl

theorem readAttributes_held {xs : List Attribute} {seen : List String} {a : α} (takes : s.Takes as effect)
    (ordinary : Ordinary as) (holds : List.Forall₂ Attribute.Holds as xs) (fresh : ∀ p ∈ as, p.1 ∉ seen) :
    s.readAttributes seen a (xs.map .ok) = .ok (as.foldl (fun a p => effect p a) a) := by
  induction holds generalizing seen a with
  | nil => rfl
  | @cons p x as xs front later ih =>
    obtain ⟨⟨read, known, understood⟩, takes'⟩ := List.forall_mem_cons.mp takes
    obtain ⟨unseen, others⟩ := List.forall_mem_cons.mp fresh
    obtain ⟨named, named'⟩ := List.forall_mem_cons.mp ordinary.named
    obtain ⟨unbound, unbound'⟩ := List.forall_mem_cons.mp ordinary.unbound
    obtain ⟨single, apart'⟩ := List.nodup_cons.mp ordinary.apart
    obtain ⟨key, writes⟩ := front
    have fresh' : ∀ q ∈ as, q.1 ∉ p.1 :: seen := by
      intro q member
      rw [List.mem_cons, not_or]
      exact ⟨fun same => single (same ▸ List.mem_map_of_mem member), others q member⟩
    have field : Entity.verbatim (fieldName x.key) = .ok p.1 := by
      rw [key, fieldName_of_named named unbound, verbatim_ofString]
    have unseen' : seen.contains p.1 = false := by simpa using unseen
    simp only [List.map_cons, readAttributes, field, known, unseen', understood _ writes, Bool.false_eq_true, if_false]
    exact ih takes' ⟨named', unbound', apart'⟩ fresh'

theorem readAttributes_shown {t : Tag} {name : String} {a : α} (takes : s.Takes as effect)
    (ordinary : Ordinary as) (shows_ : t.Shows name as)
    (commute : ∀ p ∈ as, ∀ q ∈ as, p.1 ≠ q.1 → ∀ a, effect p (effect q a) = effect q (effect p a)) :
    s.readAttributes [] a t.attributes = .ok (as.foldl (fun a p => effect p a) a) := by
  obtain ⟨as', xs, perm, holds, read, -⟩ := shows_.attributes ordinary
  have takes' : s.Takes as' effect := fun p member => takes p (perm.mem_iff.mp member)
  rw [read, readAttributes_held takes' (ordinary.perm perm) holds (fun _ _ => List.not_mem_nil)]
  refine congrArg Except.ok (perm.foldl_eq' ?_ a)
  intro p member q member' a
  by_cases same : p.1 = q.1
  · have one := List.inj_on_of_nodup_map (ordinary.perm perm).apart member member' same
    rw [one]
  · exact commute q (perm.mem_iff.mp member') p (perm.mem_iff.mp member) (Ne.symm same) a

end Schema

theorem Tag.Shows.unprefixed {t : Tag} {name : String} {as : List (String × Value)} (shows_ : t.Shows name as)
    (ordinary : Ordinary as) : t.Unprefixed := by
  intro x member
  obtain ⟨p, among, key⟩ := shows_.mem_attributes ordinary (.inl member)
  rw [key]
  exact prefix?_of_named (ordinary.named p among)

/-- A child element between its start tag and its end tag, and what it does to the value that is read. -/
structure Child (α : Type) where
  key : String
  tag : Tag
  body : List Event
  effect : α → α

def Slot.reading {α : Type} : Slot α → Tag → Reading (α → α)
  | .single read => read
  | .list _ read => read

namespace Child

variable {α : Type}

/-- What is ahead behind the start tag. -/
def inside (x : Child α) : List Event := x.body ++ [.close x.tag.name]

def events (x : Child α) : List Event := .start x.tag :: x.inside

/-- The schema knows the element and understands it, whatever comes behind it. -/
structure Fits (s : Schema α) (x : Child α) : Prop where
  name : x.tag.name = Bytes.ofString x.key
  local_ : localName x.tag.name = x.tag.name
  unprefixed : x.tag.Unprefixed
  balanced : Balanced x.body
  known : ∃ slot, s.child? x.key = some slot ∧
    ∀ es, Leads (slot.reading x.tag) (x.inside ++ es) x.effect es

def Single (s : Schema α) (xs : List (Child α)) : Prop :=
  xs.Pairwise fun x y => x.key = y.key → ∃ kind read, s.child? x.key = some (.list kind read)

def run (xs : List (Child α)) (a : α) : α := xs.foldl (fun a x => x.effect a) a

def eventsOf (xs : List (Child α)) : List Event := xs.flatMap events

variable {s : Schema α} {x : Child α} {xs : List (Child α)} {es : List Event} {a : α} {k : String}

theorem eventsOf_cons (x : Child α) (xs : List (Child α)) (es : List Event) :
    eventsOf (x :: xs) ++ es = x.events ++ (eventsOf xs ++ es) := by
  rw [eventsOf, List.flatMap_cons, List.append_assoc]
  rfl

theorem length_le_eventsOf (xs : List (Child α)) (es : List Event) : xs.length ≤ (eventsOf xs ++ es).length := by
  induction xs with
  | nil => exact Nat.zero_le _
  | cons x xs ih =>
    rw [eventsOf_cons, List.length_append, List.length_cons, events, List.length_cons]
    omega

theorem Fits.name_iff (fits : x.Fits s) : x.tag.name = Bytes.ofString k ↔ x.key = k := by
  rw [fits.name]
  exact ⟨Utf8.ofString_inj, congrArg Bytes.ofString⟩

theorem Fits.proper (fits : x.Fits s) : .ended ∉ x.events := by
  simp [events, inside, fits.balanced.proper]

theorem effect_run {f : α → α} (commute : ∀ y ∈ xs, ∀ a, f (y.effect a) = y.effect (f a)) :
    f (run xs a) = run xs (f a) := by
  induction xs generalizing a with
  | nil => rfl
  | cons y xs ih =>
    obtain ⟨front, later⟩ := List.forall_mem_cons.mp commute
    exact (ih later).trans (congrArg (run xs) (front a))

theorem balanced_eventsOf (fits : ∀ x ∈ xs, x.Fits s) : Balanced (eventsOf xs) := by
  induction xs with
  | nil => exact .nil
  | cons x xs ih =>
    obtain ⟨front, later⟩ := List.forall_mem_cons.mp fits
    have flat : eventsOf (x :: xs) = .start x.tag :: (x.body ++ .close x.tag.name :: eventsOf xs) := by
      simp [eventsOf, events, inside]
    rw [flat]
    exact .element front.balanced (ih later)

theorem run_filter_first (k : String)
    (commute : ∀ x ∈ xs, ∀ y ∈ xs, x.key ≠ y.key → ∀ a, x.effect (y.effect a) = y.effect (x.effect a)) :
    run (xs.filter (·.key ≠ k)) (run (xs.filter (·.key = k)) a) = run xs a := by
  induction xs generalizing a with
  | nil => rfl
  | cons x xs ih =>
    have rest := @ih (x.effect a) fun y member z member' =>
      commute y (List.mem_cons_of_mem x member) z (List.mem_cons_of_mem x member')
    by_cases here : x.key = k
    · rw [List.filter_cons_of_neg (by simpa using here), List.filter_cons_of_pos (by simpa using here)]
      exact rest
    · rw [List.filter_cons_of_pos (by simpa using here), List.filter_cons_of_neg (by simpa using here)]
      have passes : x.effect (run (xs.filter (·.key = k)) a) = run (xs.filter (·.key = k)) (x.effect a) := by
        apply effect_run
        intro y member
        obtain ⟨among, there⟩ := List.mem_filter.mp member
        have other : x.key ≠ y.key := fun same => here (same.trans (by simpa using there))
        exact commute x List.mem_cons_self y (List.mem_cons_of_mem x among) other
      exact (congrArg (run (xs.filter (·.key ≠ k))) passes).trans rest

end Child

namespace Schema

variable {α β : Type} {s : Schema α} {x : Child α} {xs : List (Child α)} {es : List Event} {a : α}

theorem leads_takeElement (balanced : Balanced x.body) (taken : List Event) :
    Leads (Cursor.takeElement x.tag taken) (x.events ++ es) (x.events.reverse ++ taken) es := by
  refine Leads.bind Cursor.leads_next ?_
  apply Cursor.leads_get
  intro c enough
  obtain ⟨rest, bound⟩ : ∃ rest, c.left = x.body.length + rest := by
    apply Nat.exists_eq_add_of_le
    simp only [Child.inside, List.append_eq, List.length_append] at enough
    omega
  rw [bound, List.append_eq, Child.inside, List.append_assoc, Nat.add_assoc]
  apply Cursor.leads_takeRest balanced
  rw [Cursor.takeRest]
  refine Leads.bind Cursor.leads_next ?_
  have shape : x.events.reverse ++ taken = .close x.tag.name :: (x.body.reverse ++ .start x.tag :: taken) := by
    simp [Child.events, Child.inside]
  rw [shape]
  simp only [if_true]
  exact Cursor.leads_pure _

theorem leads_readList {kind k : String} {read : Tag → Reading (α → α)} {parent : Tag} {budget : Nat}
    {aside : List Event} {name : Bytes} (slot : s.child? k = some (.list kind read))
    (fits : ∀ x ∈ xs, x.Fits s) (enough : xs.length < budget) (proper : .ended ∉ aside) :
    Leads (readList kind read parent (Bytes.ofString k) budget aside a)
      (Child.eventsOf xs ++ .close name :: es) (Child.run (xs.filter (·.key = k)) a)
      (aside.reverse ++ (Child.eventsOf (xs.filter (·.key ≠ k)) ++ .close name :: es)) := by
  induction xs generalizing a aside budget with
  | nil =>
    obtain ⟨budget, rfl⟩ := Nat.exists_eq_add_of_lt enough
    rw [readList]
    refine Leads.bind Cursor.leads_peek ?_
    refine Leads.bind (Cursor.leads_putBack (by simpa using proper)) ?_
    exact Cursor.leads_pure a
  | cons x xs ih =>
    obtain ⟨budget, rfl⟩ := Nat.exists_eq_add_of_lt enough
    obtain ⟨front, later⟩ := List.forall_mem_cons.mp fits
    have fewer : xs.length < (x :: xs).length + budget := by
      rw [List.length_cons]
      omega
    rw [readList, Child.eventsOf_cons]
    refine Leads.bind Cursor.leads_peek ?_
    by_cases here : x.key = k
    · have named : x.tag.name = Bytes.ofString k := front.name_iff.mpr here
      rw [List.filter_cons_of_pos (by simpa using here), List.filter_cons_of_neg (by simpa using here)]
      simp only [named, if_true]
      obtain ⟨slot', known, reads⟩ := front.known
      rw [here, slot, Option.some.injEq] at known
      subst known
      refine Leads.bind Cursor.leads_next (Leads.bind (reads _) ?_)
      exact ih later fewer proper
    · have other : x.tag.name ≠ Bytes.ofString k := fun same => here (front.name_iff.mp same)
      rw [List.filter_cons_of_neg (by simpa using here), List.filter_cons_of_pos (by simpa using here)]
      simp only [other, if_false]
      refine Leads.bind (leads_takeElement front.balanced aside) ?_
      have rest : Leads (readList kind read parent (Bytes.ofString k) _ (x.events.reverse ++ aside) a) _ _ _ :=
        ih later fewer (by simp [front.proper, proper])
      rw [List.reverse_append, List.reverse_reverse, List.append_assoc] at rest
      rw [Child.eventsOf_cons]
      exact rest

theorem leads_readChildren {parent : Tag} {budget : Nat} {seen : List String} {name : Bytes}
    (plain : parent.Unprefixed) (fits : ∀ x ∈ xs, x.Fits s) (single : Child.Single s xs)
    (commute : ∀ x ∈ xs, ∀ y ∈ xs, x.key ≠ y.key → ∀ a, x.effect (y.effect a) = y.effect (x.effect a))
    (fresh : ∀ x ∈ xs, x.key ∉ seen) (enough : xs.length < budget) :
    Leads (s.readChildren parent budget seen a) (Child.eventsOf xs ++ .close name :: es) (Child.run xs a) es := by
  induction budget generalizing xs seen a with
  | zero => exact absurd enough (Nat.not_lt_zero _)
  | succ budget ih =>
    rw [readChildren]
    cases xs with
    | nil =>
      refine Leads.bind Cursor.leads_peek (Leads.bind Cursor.leads_next ?_)
      exact Cursor.leads_pure a
    | cons x xs =>
      obtain ⟨front, later⟩ := List.forall_mem_cons.mp fits
      obtain ⟨unseen, others⟩ := List.forall_mem_cons.mp fresh
      obtain ⟨first, single'⟩ := List.pairwise_cons.mp single
      obtain ⟨slot, known, reads⟩ := front.known
      have key : (Entity.verbatim (localName x.tag.name)).mapError Fault.malformed = .ok x.key := by
        rw [front.local_, front.name, verbatim_ofString]
        rfl
      have unseen' : seen.contains x.key = false := by simpa using unseen
      rw [Child.eventsOf_cons]
      refine Leads.bind Cursor.leads_peek (Leads.bind (Cursor.leads_orRefuse key) ?_)
      simp only [known, unseen', Bool.false_eq_true, if_false]
      cases slot with
      | single read =>
        have fresh' : ∀ y ∈ xs, y.key ∉ x.key :: seen := by
          intro y member
          rw [List.mem_cons, not_or]
          refine ⟨fun same => ?_, others y member⟩
          obtain ⟨_, _, again⟩ := first y member same.symm
          cases known.symm.trans again
        refine Leads.bind (Cursor.leads_isNil ?_) (Leads.bind Cursor.leads_next ?_)
        · intro t member
          simp only [List.mem_cons, List.not_mem_nil, or_false] at member
          rcases member with rfl | rfl
          · exact plain
          · exact front.unprefixed
        · refine Leads.bind (reads _) ?_
          exact ih later single'
            (fun y member z member' => commute y (List.mem_cons_of_mem x member) z (List.mem_cons_of_mem x member'))
            fresh' (Nat.lt_of_succ_lt_succ enough)
      | list kind read =>
        -- the kind is done with, and the others are fewer
        have kept : ∀ y ∈ (x :: xs).filter (·.key ≠ x.key), y ∈ x :: xs ∧ y.key ≠ x.key := by
          intro y member
          obtain ⟨among, other⟩ := List.mem_filter.mp member
          exact ⟨among, by simpa using other⟩
        have fresh' : ∀ y ∈ (x :: xs).filter (·.key ≠ x.key), y.key ∉ x.key :: seen := by
          intro y member
          rw [List.mem_cons, not_or]
          exact ⟨(kept y member).2, fresh y (kept y member).1⟩
        have fewer : ((x :: xs).filter (·.key ≠ x.key)).length < budget := by
          rw [List.filter_cons_of_neg (by simp)]
          exact Nat.lt_of_le_of_lt (List.length_filter_le _ xs) (Nat.lt_of_succ_lt_succ enough)
        change Leads _ (x.events ++ (Child.eventsOf xs ++ .close name :: es)) _ _
        rw [← Child.eventsOf_cons, ← Child.run_filter_first x.key commute]
        refine Cursor.leads_get fun c ahead => ?_
        have bound : (x :: xs).length < c.left + 1 :=
          Nat.lt_succ_of_le (Nat.le_trans (Child.length_le_eventsOf _ _) ahead)
        rw [front.name]
        refine Leads.bind (leads_readList known fits bound List.not_mem_nil) ?_
        exact ih (fun y member => fits y (kept y member).1) (List.Pairwise.filter _ single)
          (fun y member z member' => commute y (kept y member).1 z (kept z member').1) fresh' fewer

theorem leads_read {t : Tag} {name : String} {as : List (String × Value)} {effect : String × Value → α → α}
    {end_ : Bytes} (shows_ : t.Shows name as) (ordinary : Ordinary as) (takes : s.Takes as effect)
    (exchange : ∀ p ∈ as, ∀ q ∈ as, p.1 ≠ q.1 → ∀ a, effect p (effect q a) = effect q (effect p a))
    (fits : ∀ x ∈ xs, x.Fits s) (single : Child.Single s xs)
    (commute : ∀ x ∈ xs, ∀ y ∈ xs, x.key ≠ y.key → ∀ a, x.effect (y.effect a) = y.effect (x.effect a)) :
    Leads (s.read t) (Child.eventsOf xs ++ .close end_ :: es)
      (Child.run xs (as.foldl (fun a p => effect p a) s.blank)) es := by
  refine Leads.bind (Cursor.leads_orRefuse (readAttributes_shown takes ordinary shows_ exchange))
    (Cursor.leads_get fun c ahead => ?_)
  have bound : xs.length < c.left + 1 :=
    Nat.lt_succ_of_le (Nat.le_trans (Child.length_le_eventsOf _ _) ahead)
  exact leads_readChildren (shows_.unprefixed ordinary) fits single commute (fun _ _ => List.not_mem_nil) bound

end Schema

def Element (name : String) (as : List (String × Value)) (body es : List Event) : Prop :=
  ∃ t : Tag, t.Shows name as ∧ es = .start t :: (body ++ [.close t.name])

def Elements {γ : Type} (R : γ → List Event → Prop) (cs : List γ) (body : List Event) : Prop :=
  ∃ ess, List.Forall₂ R cs ess ∧ body = ess.flatten

namespace Schema

variable {α β γ : Type} {s : Schema α} {name : String} {as : List (String × Value)} {body es : List Event}

def Reads (s : Schema α) (key : String) (effect : α → α) (es : List Event) : Prop :=
  ∃ x : Child α, x.key = key ∧ x.effect = effect ∧ x.events = es ∧ x.Fits s

theorem reads_element {slot : Slot α} {f : α → α} (known : s.child? name = some slot)
    (named : Named (Bytes.ofString name)) (ordinary : Ordinary as) (balanced : Balanced body)
    (element : Element name as body es)
    (read : ∀ t : Tag, t.Shows name as → ∀ rest, Leads (slot.reading t) (body ++ .close t.name :: rest) f rest) :
    s.Reads name f es := by
  obtain ⟨t, shows_, rfl⟩ := element
  have local_ : localName t.name = t.name := by
    rw [shows_.1]
    exact localName_of_named named
  refine ⟨⟨name, t, body, f⟩, rfl, rfl, rfl, shows_.1, local_, shows_.unprefixed ordinary, balanced, slot, known, ?_⟩
  intro rest
  rw [Child.inside, List.append_assoc]
  exact read t shows_ rest

theorem reads_each {inner : Schema β} {kind : String} {f : β → α → α} {b : β}
    (known : s.child? name = some (each kind inner f)) (named : Named (Bytes.ofString name))
    (ordinary : Ordinary as) (balanced : Balanced body) (element : Element name as body es)
    (read : ∀ t : Tag, t.Shows name as → ∀ rest, Leads (inner.read t) (body ++ .close t.name :: rest) b rest) :
    s.Reads name (f b) es := by
  apply reads_element known named ordinary balanced element
  intro t shows_ rest
  exact Leads.bind (read t shows_ rest) (Cursor.leads_pure _)

variable {key : γ → String} {act : γ → α → α} {R : γ → List Event → Prop} {cs : List γ}

theorem exists_children (reads : ∀ c ∈ cs, ∀ es, R c es → s.Reads (key c) (act c) es)
    (elements : Elements R cs body) :
    ∃ xs : List (Child α), (∀ x ∈ xs, x.Fits s) ∧ Child.eventsOf xs = body ∧
      xs.map (fun x => (x.key, x.effect)) = cs.map fun c => (key c, act c) := by
  obtain ⟨ess, related, rfl⟩ := elements
  induction related with
  | nil => exact ⟨[], List.forall_mem_nil _, rfl, rfl⟩
  | cons front later ih =>
    obtain ⟨read, reads'⟩ := List.forall_mem_cons.mp reads
    obtain ⟨x, key_, act_, rfl, fits⟩ := read _ front
    obtain ⟨xs, fits', flat, alike⟩ := ih reads'
    refine ⟨x :: xs, List.forall_mem_cons.mpr ⟨fits, fits'⟩, ?_, ?_⟩
    · rw [Child.eventsOf, List.flatMap_cons, List.flatten_cons]
      exact congrArg (x.events ++ ·) flat
    · rw [List.map_cons, List.map_cons, alike, key_, act_]

theorem balanced_elements (reads : ∀ c ∈ cs, ∀ es, R c es → s.Reads (key c) (act c) es)
    (elements : Elements R cs body) : Balanced body := by
  obtain ⟨xs, fits, rfl, -⟩ := exists_children reads elements
  exact Child.balanced_eventsOf fits

theorem leads_elements {t : Tag} {end_ : Bytes} {effect : String × Value → α → α} {rest : List Event}
    (shows_ : t.Shows name as) (ordinary : Ordinary as) (takes : s.Takes as effect)
    (exchange : ∀ p ∈ as, ∀ q ∈ as, p.1 ≠ q.1 → ∀ a, effect p (effect q a) = effect q (effect p a))
    (reads : ∀ c ∈ cs, ∀ es, R c es → s.Reads (key c) (act c) es) (elements : Elements R cs body)
    (single : cs.Pairwise fun c d => key c = key d → ∃ kind read, s.child? (key c) = some (.list kind read))
    (commute : ∀ c ∈ cs, ∀ d ∈ cs, key c ≠ key d → ∀ a, act c (act d a) = act d (act c a)) :
    Leads (s.read t) (body ++ .close end_ :: rest)
      (cs.foldl (fun a c => act c a) (as.foldl (fun a p => effect p a) s.blank)) rest := by
  obtain ⟨xs, fits, rfl, alike⟩ := exists_children reads elements
  have same : ∀ x ∈ xs, ∃ c ∈ cs, key c = x.key ∧ act c = x.effect := by
    intro x member
    have image : (x.key, x.effect) ∈ cs.map fun c => (key c, act c) := alike ▸ List.mem_map_of_mem member
    obtain ⟨c, among, pair⟩ := List.mem_map.mp image
    exact ⟨c, among, congrArg Prod.fst pair, congrArg Prod.snd pair⟩
  have commute' : ∀ x ∈ xs, ∀ y ∈ xs, x.key ≠ y.key → ∀ a, x.effect (y.effect a) = y.effect (x.effect a) := by
    intro x member y member' other
    obtain ⟨c, among, key_, act_⟩ := same x member
    obtain ⟨d, among', key', act'⟩ := same y member'
    rw [← act_, ← act']
    exact commute c among d among' (by rwa [key_, key'])
  have single' : Child.Single s xs := by
    have pairs : (cs.map fun c => (key c, act c)).Pairwise fun p q =>
        p.1 = q.1 → ∃ kind read, s.child? p.1 = some (.list kind read) := List.pairwise_map.mpr single
    rw [← alike] at pairs
    exact List.pairwise_map.mp pairs
  have effects : ∀ a, Child.run xs a = cs.foldl (fun a c => act c a) a := by
    intro a
    have folded := congrArg (List.foldl (fun a p => p.2 a) a) alike
    rwa [List.foldl_map, List.foldl_map] at folded
  rw [← effects]
  exact leads_read shows_ ordinary takes exchange fits single' commute'

end Schema

end RomLedger.Markup
