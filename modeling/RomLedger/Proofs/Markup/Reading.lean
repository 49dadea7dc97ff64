import RomLedger.Markup.Schema
import RomLedger.Proofs.Bytes.Utf8

/- Elements read from events. What matters of a cursor is which events are ahead of it, whether they wait in
   its queue or still come from the tape. -/
namespace RomLedger.Markup

def Tag.Unprefixed (t : Tag) : Prop := ∀ a, .ok a ∈ t.attributes → prefix? a.key = none

/-- The tape gives the events, one after the other, before it ends. -/
inductive Tape.Gives : Tape → List Event → Prop
  | nil {t : Tape} : Gives t []
  | cons {t t' : Tape} {e : Event} {es : List Event} (next : t.next = (.ok e, t')) (proper : e ≠ .ended)
      (later : Gives t' es) : Gives t (e :: es)

namespace Tape

theorem left_join (s : String) (t : Tape) : (t.join s).2.left ≤ t.left := by
  fun_induction join s t with
  | case1 s t more rest part p understood ih =>
    exact Nat.le_trans ih (Nat.le_of_lt (left_advance (atEnd_of_continues more)))
  | case2 s t more rest part e failed =>
    exact Nat.le_of_lt (left_advance (atEnd_of_continues more))
  | case3 s t done => exact Nat.le_refl t.left

theorem left_of_join {s : String} {t t' : Tape} {e : Event} (joined : t.join s = (.ok e, t')) :
    t'.left ≤ t.left := by
  have less := left_join s t
  rwa [joined] at less

theorem left_next {t t' : Tape} {e : Event} (next : t.next = (.ok e, t')) (proper : e ≠ .ended) :
    t'.left < t.left := by
  fun_induction Tape.next t with
  | case1 | case7 | case9 => cases next
  | case2 t rest seen => exact absurd (Except.ok.inj (Prod.mk.inj next).1).symm proper
  | case3 t rest tag seen | case4 t rest name seen =>
    obtain ⟨-, rfl⟩ := Prod.mk.inj next
    exact left_advance (by simp [atEnd, seen])
  | case6 t rest b seen kept some_ s understood | case8 t rest b seen s understood =>
    exact Nat.lt_of_le_of_lt (left_of_join next) (left_advance (by simp [atEnd, seen]))
  | case5 t rest b seen kept none ih => exact Nat.lt_trans (ih next) (left_advance (by simp [atEnd, seen]))
  | case10 t rest seen ih | case11 t rest seen ih =>
    exact Nat.lt_trans (ih next) (left_advance (by simp [atEnd, seen]))

theorem Gives.length_le {t : Tape} {es : List Event} (gives : t.Gives es) : es.length ≤ t.left := by
  induction gives with
  | nil => exact Nat.zero_le _
  | cons next proper later ih => exact Nat.lt_of_le_of_lt ih (left_next next proper)

end Tape

namespace Cursor

def Ahead (c : Cursor) (es : List Event) : Prop :=
  ∃ later, es = c.queue ++ later ∧ c.tape.Gives later ∧ .ended ∉ es

def Leads {α : Type} (m : Reading α) (es : List Event) (a : α) (es' : List Event) : Prop :=
  ∀ c : Cursor, c.Ahead es → ∃ c' : Cursor, m c = .ok (a, c') ∧ c'.Ahead es'

variable {α β : Type} {m : Reading α} {f : α → Reading β} {a : α} {b : β} {e : Event}
variable {es es' es'' xs : List Event} {t : Tag} {name : Bytes}

theorem Ahead.length_le {c : Cursor} (ahead : c.Ahead es) : es.length ≤ c.left := by
  obtain ⟨later, rfl, gives, -⟩ := ahead
  rw [List.length_append, left]
  exact Nat.add_le_add_left gives.length_le _

theorem Leads.bind (first : Leads m es a es') (second : Leads (f a) es' b es'') :
    Leads (m >>= f) es b es'' := by
  intro c ahead
  obtain ⟨c', given, ahead'⟩ := first c ahead
  obtain ⟨c'', given', ahead''⟩ := second c' ahead'
  refine ⟨c'', ?_, ahead''⟩
  change (m c >>= fun r => f r.1 r.2) = _
  rw [given]
  exact given'

theorem leads_pure (a : α) : Leads (pure a) es a es := fun c ahead => ⟨c, rfl, ahead⟩

theorem leads_get {g : Cursor → Reading β} (enough : ∀ c, es.length ≤ c.left → Leads (g c) es b es') :
    Leads (get >>= g) es b es' := fun c ahead => enough c ahead.length_le c ahead

theorem leads_orRefuse {r : Except Fault α} (given : r = .ok a) : Leads (orRefuse r) es a es := by
  rw [given]
  exact leads_pure a

theorem leads_next : Leads next (e :: es) e es := by
  rintro ⟨queue, tape⟩ ⟨later, front, gives, proper⟩
  cases queue with
  | cons q queue =>
    obtain ⟨rfl, rfl⟩ := List.cons.inj front
    exact ⟨⟨queue, tape⟩, rfl, later, rfl, gives, fun member => proper (List.mem_cons_of_mem _ member)⟩
  | nil =>
    cases gives with
    | nil => cases front
    | @cons _ t' e es next _ more =>
      cases front
      refine ⟨⟨[], t'⟩, ?_, es, rfl, more, fun member => proper (List.mem_cons_of_mem _ member)⟩
      simp only [Cursor.next, next]

theorem leads_peek : Leads peek (e :: es) e (e :: es) := by
  rintro ⟨queue, tape⟩ ⟨later, front, gives, proper⟩
  cases queue with
  | cons q queue =>
    obtain ⟨rfl, rfl⟩ := List.cons.inj front
    exact ⟨⟨e :: queue, tape⟩, rfl, later, rfl, gives, proper⟩
  | nil =>
    cases gives with
    | nil => cases front
    | @cons _ t' e es next _ more =>
      cases front
      refine ⟨⟨[e], t'⟩, ?_, es, rfl, more, proper⟩
      simp only [Cursor.peek, next]

theorem leads_putBack (proper : .ended ∉ xs) : Leads (putBack xs) es () (xs ++ es) := by
  rintro c ⟨later, rfl, gives, sound⟩
  refine ⟨{ c with queue := xs ++ c.queue }, rfl, later, (List.append_assoc ..).symm, gives, ?_⟩
  rw [List.mem_append]
  rintro (front | back)
  · exact proper front
  · exact sound back

theorem leads_isNil {tags : List Tag} (plain : ∀ t ∈ tags, t.Unprefixed) :
    Leads (isNil tags) es false es := by
  intro c ahead
  refine ⟨c, ?_, ahead⟩
  have absent : tags.any c.tape.scopes.isNil = false := by
    rw [List.any_eq_false]
    intro t member
    rw [Bool.not_eq_true, Scopes.isNil, List.any_eq_false]
    intro x among
    cases x with
    | error f => exact Bool.false_ne_true
    | ok a => simp [plain t member a among]
  rw [isNil, absent]

/-- Events in which every start tag has its end tag. -/
inductive Balanced : List Event → Prop
  | nil : Balanced []
  | text {s : String} {es : List Event} (later : Balanced es) : Balanced (.text s :: es)
  | element {t : Tag} {xs es : List Event} (inside : Balanced xs) (later : Balanced es) :
      Balanced (.start t :: (xs ++ .close t.name :: es))

theorem Balanced.proper (balanced : Balanced xs) : .ended ∉ xs := by
  induction balanced with
  | nil => exact List.not_mem_nil
  | text later ih => simpa using ih
  | element inside later within ih => simp [within, ih]

theorem leads_takeRest {budget depth : Nat} {taken : List Event} {r : List Event} (balanced : Balanced xs)
    (later : Leads (takeRest name budget depth (xs.reverse ++ taken)) es r es') :
    Leads (takeRest name (xs.length + budget) depth taken) (xs ++ es) r es' := by
  induction balanced generalizing depth taken es budget with
  | nil => simpa using later
  | @text s xs balanced ih =>
    have rest : Leads (takeRest name (xs.length + budget) depth (.text s :: taken)) (xs ++ es) r es' :=
      ih (by simpa using later)
    rw [List.length_cons, Nat.add_right_comm, takeRest]
    exact Leads.bind leads_next rest
  | @element t xs ys inside balanced within ih =>
    have count : (Event.start t :: (xs ++ .close t.name :: ys)).length + budget =
        xs.length + (ys.length + budget + 1) + 1 := by
      simp only [List.length_cons, List.length_append]
      omega
    have behind : Leads (takeRest name (ys.length + budget) depth
        (.close t.name :: (xs.reverse ++ .start t :: taken))) (ys ++ es) r es' := by
      apply ih
      simpa using later
    rw [count, takeRest, List.cons_append, List.append_assoc, List.cons_append]
    refine Leads.bind leads_next ?_
    by_cases same : t.name = name
    · -- an element of the same name closes before the one that is taken
      simp only [same, if_true]
      apply within
      rw [takeRest]
      refine Leads.bind leads_next ?_
      simp only [if_true]
      rwa [same] at behind
    · simp only [same, if_false]
      apply within
      rw [takeRest]
      refine Leads.bind leads_next ?_
      cases depth <;> simpa only [same, if_false] using behind

end Cursor

end RomLedger.Markup
