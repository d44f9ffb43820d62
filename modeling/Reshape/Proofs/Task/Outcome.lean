import Mathlib.Data.List.Forall2
import Reshape.Task

/-!
# Outcomes of tasks

What is certain about the end of a task, whatever the host does in the meantime. `Ends` speaks of
every outcome, a result or a fault, and `Returns` says what results there can be: tasks side by side
return what each of them can return by itself (`returns_joinAll`), and a task fails with nothing but
the faults it `Raises` (`ends_raises`). A task that `Settles` has one outcome, up to which fault it
is, and so have tasks that are made of such tasks one after the other (`Settles.bind`) or side by
side (`Settles.joinAll`): side by side the first fault to come ends them all, so only that there is
one is certain. Removing the suspensions of a task keeps its outcomes (`ends_prompt`). A task that
has none and settles is pure: what it can return it `Yields`, in a single poll and however long it
is polled.
-/

namespace Reshape.Task

variable {ω α β : Type}

/-- Every outcome of the task satisfies `P`, whatever state the host is in each time the task looks
at it. -/
def Ends (P : Except Fault α → Prop) : Task ω α → Prop
  | done a => P (.ok a)
  | fail e => P (.error e)
  | wait rest => rest.Ends P
  | act _ next => ∀ w, (next w).Ends P

theorem Ends.mono {P Q : Except Fault α → Prop} (h : ∀ r, P r → Q r) {t : Task ω α}
    (ht : t.Ends P) : t.Ends Q := by
  induction t with
  | done | fail => exact h _ ht
  | wait rest ih => exact ih ht
  | act change next ih => exact fun w => ih w (ht w)

theorem ends_bind {P : Except Fault β → Prop} (t : Task ω α) (f : α → Task ω β) :
    (t.bind f).Ends P ↔ t.Ends fun
      | .ok a => (f a).Ends P
      | .error e => P (.error e) := by
  induction t with
  | done | fail => rfl
  | wait rest ih => exact ih
  | act change next ih => exact forall_congr' ih

theorem ends_map {P : Except Fault β → Prop} (f : α → β) (t : Task ω α) :
    (t.map f).Ends P ↔ t.Ends fun r => P (r.map f) := by
  induction t with
  | done | fail => rfl
  | wait rest ih => exact ih
  | act change next ih => exact forall_congr' ih

/-- The outcomes of two tasks side by side: a fault of either, or both results. -/
theorem Ends.zip {P : Except Fault α → Prop} {Q : Except Fault β → Prop}
    {R : Except Fault (α × β) → Prop} (hok : ∀ a b, P (.ok a) → Q (.ok b) → R (.ok (a, b)))
    (hleft : ∀ e, P (.error e) → R (.error e)) (hright : ∀ e, Q (.error e) → R (.error e))
    {l : Task ω α} {r : Task ω β} (hl : l.Ends P) (hr : r.Ends Q) : (l.zip r).Ends R := by
  induction l generalizing r with
  | done a =>
    refine (ends_map _ r).2 (hr.mono fun out hout => ?_)
    cases out with
    | ok b => exact hok a b hl hout
    | error e => exact hright e hout
  | fail e => exact hleft e hl
  | wait l ih =>
    -- The right task gets its poll before the left one goes on.
    rw [Task.zip]
    induction r with
    | done b =>
      refine (ends_map _ l).2 (Ends.mono (fun out hout => ?_) hl)
      cases out with
      | ok a => exact hok a b hout hr
      | error e => exact hleft e hout
    | fail e => exact hright e hr
    | wait r => exact ih hl hr
    | act change next ihr => exact fun w => ihr w (hr w)
  | act change next ih => exact fun w => ih w (hl w) hr

theorem Ends.complete {P : Except Fault α → Prop} {t : Task ω α} (h : t.Ends P) (w : ω) :
    P (t.complete w).1 := by
  induction t generalizing w with
  | done | fail => exact h
  | wait rest ih => exact ih h w
  | act change next ih => exact ih w (h w) (change w)

/-- A result that satisfies `P`, or a fault that satisfies `F`. -/
def Outcome (P : α → Prop) (F : Fault → Prop) : Except Fault α → Prop
  | .ok a => P a
  | .error e => F e

theorem Ends.joinAll {P : α → Prop} {F : Fault → Prop} {ts : List (Task ω α)}
    (h : ∀ t ∈ ts, t.Ends (Outcome P F)) :
    (joinAll ts).Ends (Outcome (fun as => ∀ a ∈ as, P a) F) := by
  induction ts with
  | nil => exact fun _ ha => absurd ha List.not_mem_nil
  | cons t ts ih =>
    obtain ⟨ht, hts⟩ := List.forall_mem_cons.1 h
    refine (ends_map ..).2 (Ends.zip (fun a as ha has => ?_) (fun e he => he) (fun e he => he) ht
      (ih hts))
    exact List.forall_mem_cons.2 ⟨ha, has⟩

/-! ### Results -/

/-- The task can return this result, if the host's state takes some course. -/
def Returns : Task ω α → α → Prop
  | done a, b => a = b
  | fail _, _ => False
  | wait rest, b => rest.Returns b
  | act _ next, b => ∃ w, (next w).Returns b

theorem returns_bind (t : Task ω α) (f : α → Task ω β) (b : β) :
    (t.bind f).Returns b ↔ ∃ a, t.Returns a ∧ (f a).Returns b := by
  induction t with
  | done a => simp [bind, Returns]
  | fail e => simp [bind, Returns]
  | wait rest ih => exact ih
  | act change next ih =>
    refine (exists_congr ih).trans ⟨?_, ?_⟩
    · rintro ⟨w, a, ha, hb⟩
      exact ⟨a, ⟨w, ha⟩, hb⟩
    · rintro ⟨a, ⟨w, ha⟩, hb⟩
      exact ⟨w, a, ha, hb⟩

theorem returns_map (f : α → β) (t : Task ω α) (b : β) :
    (t.map f).Returns b ↔ ∃ a, t.Returns a ∧ f a = b :=
  returns_bind t _ b

theorem returns_zip (l : Task ω α) (r : Task ω β) (a : α) (b : β) :
    (l.zip r).Returns (a, b) ↔ l.Returns a ∧ r.Returns b := by
  induction l generalizing r with
  | done c => simp [Task.zip, returns_map, Returns, and_comm]
  | fail e => simp [Task.zip, Returns]
  | wait l ih =>
    rw [Task.zip]
    induction r with
    | done c => simp [advance, returns_map, Returns]
    | fail e => simp [advance, Returns]
    | wait r => exact ih r
    | act change next ihr => exact (exists_congr ihr).trans exists_and_left
  | act change next ih => exact (exists_congr fun w => ih w r).trans exists_and_right

theorem returns_joinAll (ts : List (Task ω α)) (as : List α) :
    (joinAll ts).Returns as ↔ List.Forall₂ Returns ts as := by
  induction ts generalizing as with
  | nil => simp [joinAll, Returns, eq_comm]
  | cons t ts ih =>
    rw [joinAll, returns_map, List.forall₂_cons_left_iff]
    refine ⟨?_, ?_⟩
    · rintro ⟨⟨b, bs⟩, h, rfl⟩
      obtain ⟨hb, hbs⟩ := (returns_zip ..).1 h
      exact ⟨b, bs, hb, (ih bs).1 hbs, rfl⟩
    · rintro ⟨b, bs, hb, hbs, rfl⟩
      exact ⟨(b, bs), (returns_zip ..).2 ⟨hb, (ih bs).2 hbs⟩, rfl⟩

theorem Ends.of_returns {P : Except Fault α → Prop} {t : Task ω α} (ht : t.Ends P) {a : α}
    (ha : t.Returns a) : P (.ok a) := by
  induction t with
  | done b =>
    cases ha
    exact ht
  | fail e => exact ha.elim
  | wait rest ih => exact ih ht ha
  | act change next ih =>
    obtain ⟨w, ha⟩ := ha
    exact ih w (ht w) ha

/-- Only what the task can return counts for what comes after it. -/
theorem bind_congr_returns {t : Task ω α} {f g : α → Task ω β}
    (h : ∀ a, t.Returns a → f a = g a) : t.bind f = t.bind g := by
  induction t with
  | done a => exact h a rfl
  | fail e => rfl
  | wait rest ih => exact congrArg wait (ih h)
  | act change next ih => exact congrArg (act change) (funext fun w => ih w fun a ha => h a ⟨w, ha⟩)

theorem map_congr {t : Task ω α} {f g : α → β} (h : ∀ a, t.Returns a → f a = g a) :
    t.map f = t.map g :=
  bind_congr_returns fun a ha => congrArg done (h a ha)

/-! ### Faults -/

/-- The task can fail with this fault, if the host's state takes some course. -/
def Raises : Task ω α → Fault → Prop
  | done _, _ => False
  | fail e, e' => e = e'
  | wait rest, e => rest.Raises e
  | act _ next, e => ∃ w, (next w).Raises e

/-- Every outcome is one that the task can return or raise. -/
theorem ends_possible (t : Task ω α) : t.Ends (Outcome t.Returns t.Raises) := by
  induction t with
  | done | fail => rfl
  | wait rest ih => exact ih
  | act change next ih =>
    refine fun w => (ih w).mono fun out hout => ?_
    cases out <;> exact ⟨w, hout⟩

theorem ends_raises (t : Task ω α) : t.Ends (Outcome (fun _ => True) t.Raises) := by
  refine (ends_possible t).mono fun out hout => ?_
  cases out with
  | ok a => trivial
  | error e => exact hout

theorem returns_of_complete {t : Task ω α} {w : ω} {a : α} (h : (t.complete w).1 = .ok a) :
    t.Returns a := by
  have hends := (ends_possible t).complete w
  rwa [h] at hends

theorem ends_outcome (t : Task ω α) : t.Ends (Outcome (fun _ => True) fun _ => True) := by
  refine (ends_raises t).mono fun out _ => ?_
  cases out <;> trivial

/-! ### Tasks that settle -/

/-- The task has this result, or no result and some fault, whatever state the host is in. -/
def Settles (t : Task ω α) (result : Option α) : Prop :=
  t.Ends fun r => r.toOption = result

namespace Settles

variable {t : Task ω α} {result : Option α}

theorem done (a : α) : (Task.done a : Task ω α).Settles (some a) :=
  rfl

theorem bind {f : α → Task ω β} {g : α → Option β} (ht : t.Settles result)
    (hf : ∀ a ∈ result, (f a).Settles (g a)) : (t.bind f).Settles (result.bind g) := by
  refine (ends_bind t f).2 (Ends.mono (fun r hr => ?_) ht)
  subst hr
  cases r with
  | ok a => exact hf a rfl
  | error e => rfl

theorem map (f : α → β) (ht : t.Settles result) : (t.map f).Settles (result.map f) := by
  refine (ends_map f t).2 (Ends.mono (fun r hr => ?_) ht)
  subst hr
  cases r <;> rfl

theorem zip {r : Task ω β} {x : Option β} (ht : t.Settles result) (hr : r.Settles x) :
    (t.zip r).Settles (result.bind fun a => x.map fun b => (a, b)) := by
  refine Ends.zip (fun a b ha hb => ?_) (fun e he => ?_) (fun e he => ?_) ht hr
  · subst ha hb
    rfl
  · subst he
    rfl
  · subst he
    cases result <;> rfl

/-- Tasks side by side settle if each of them does: on all results, or on none. -/
theorem joinAll {ts : List (Task ω α)} {results : List (Option α)}
    (h : List.Forall₂ Settles ts results) : (Task.joinAll ts).Settles (results.mapM id) := by
  induction h with
  | nil => rfl
  | @cons t x ts results ht _ ih =>
    have hcons : (x.bind fun a => (results.mapM id).map fun as => (a, as)).map
        (fun r => r.1 :: r.2) = (x :: results).mapM id := by
      cases x <;> cases h : results.mapM id <;> simp [List.mapM_cons, h]
    rw [Task.joinAll, ← hcons]
    exact (ht.zip ih).map _

/-- Results that are there together are there one by one. -/
theorem mem_of_joined {results : List (Option α)} {as : List α} (h : results.mapM id = some as)
    {a : α} (ha : a ∈ as) : some a ∈ results := by
  induction results generalizing as with
  | nil =>
    cases h
    cases ha
  | cons result rest ih =>
    cases result with
    | none => simp [List.mapM_cons] at h
    | some b =>
      cases hrest : rest.mapM id with
      | none => simp [List.mapM_cons, hrest] at h
      | some bs =>
        obtain rfl : b :: bs = as := by simpa [List.mapM_cons, hrest] using h
        rcases List.mem_cons.1 ha with rfl | ha
        · exact List.mem_cons_self
        · exact List.mem_cons_of_mem _ (ih hrest ha)

theorem complete (ht : t.Settles result) (w : ω) : (t.complete w).1.toOption = result :=
  Ends.complete ht w

end Settles

theorem toOption_eq_some {r : Except Fault α} {a : α} : r.toOption = some a ↔ r = .ok a := by
  cases r <;> simp [Except.toOption]

theorem toOption_eq_none {r : Except Fault α} : r.toOption = none ↔ ∃ e, r = .error e := by
  cases r <;> simp [Except.toOption]

/-! ### Suspensions -/

/-- A poll in this state of the host leaves the task unfinished. -/
def Suspends (t : Task ω α) (w : ω) : Prop :=
  ∃ rest, (t.poll w).1 = .pending rest

theorem suspends_map (f : α → β) (t : Task ω α) (w : ω) :
    (t.map f).Suspends w ↔ t.Suspends w := by
  rw [Suspends, Suspends, map, poll_bind]
  rcases t.poll w with ⟨⟨_ | _⟩ | _, w⟩ <;> simp [poll]

/-- A single poll that finishes gives what polling to the end gives. -/
theorem runSync_eq_complete {t : Task ω α} {w : ω} (h : ¬t.Suspends w) :
    t.runSync w = t.complete w := by
  induction t generalizing w with
  | done | fail => rfl
  | wait rest => exact absurd ⟨rest, rfl⟩ h
  | act change next ih => exact ih w h

theorem runSync_of_suspends {t : Task ω α} {w : ω} (h : t.Suspends w) :
    (t.runSync w).1 = .error .unfinished := by
  obtain ⟨rest, hrest⟩ := h
  rw [runSync]
  rcases hpoll : t.poll w with ⟨progress, w'⟩
  rw [hpoll] at hrest
  cases hrest
  rfl

/-- A result of a single poll is the result of polling to the end. -/
theorem complete_of_runSync {t : Task ω α} {w : ω} {a : α} (h : (t.runSync w).1 = .ok a) :
    (t.complete w).1 = .ok a := by
  have hfinishes : ¬t.Suspends w := by
    intro hsuspends
    rw [runSync_of_suspends hsuspends] at h
    cases h
  rwa [← runSync_eq_complete hfinishes]

/-- The task without its suspensions. -/
def prompt : Task ω α → Task ω α
  | done a => done a
  | fail e => fail e
  | wait rest => rest.prompt
  | act change next => act change fun w => (next w).prompt

theorem ends_prompt {P : Except Fault α → Prop} (t : Task ω α) : t.prompt.Ends P ↔ t.Ends P := by
  induction t with
  | done | fail => rfl
  | wait rest ih => exact ih
  | act change next ih => exact forall_congr' ih

/-- The task has no suspensions. -/
def IsPrompt : Task ω α → Prop
  | done _ | fail _ => True
  | wait _ => False
  | act _ next => ∀ w, (next w).IsPrompt

theorem isPrompt_prompt (t : Task ω α) : t.prompt.IsPrompt := by
  induction t with
  | done | fail => trivial
  | wait rest ih => exact ih
  | act change next ih => exact ih

namespace IsPrompt

theorem bind {t : Task ω α} {f : α → Task ω β} (ht : t.IsPrompt)
    (hf : ∀ a, t.Returns a → (f a).IsPrompt) : (t.bind f).IsPrompt := by
  induction t with
  | done a => exact hf a rfl
  | fail e => trivial
  | wait rest => exact ht.elim
  | act change next ih => exact fun w => ih w (ht w) fun a ha => hf a ⟨w, ha⟩

theorem zip {l : Task ω α} {r : Task ω β} (hl : l.IsPrompt) (hr : r.IsPrompt) :
    (l.zip r).IsPrompt := by
  induction l with
  | done a => exact hr.bind fun _ _ => trivial
  | fail e => trivial
  | wait rest => exact hl.elim
  | act change next ih => exact fun w => ih w (hl w)

theorem joinAll {ts : List (Task ω α)} (h : ∀ t ∈ ts, t.IsPrompt) : (Task.joinAll ts).IsPrompt := by
  induction ts with
  | nil => trivial
  | cons t ts ih =>
    obtain ⟨ht, hts⟩ := List.forall_mem_cons.1 h
    exact (ht.zip (ih hts)).bind fun _ _ => trivial

theorem not_suspends {t : Task ω α} (h : t.IsPrompt) (w : ω) : ¬t.Suspends w := by
  induction t generalizing w with
  | done | fail =>
    rintro ⟨_, hpoll⟩
    cases hpoll
  | wait rest => exact h.elim
  | act change next ih => exact ih w (h w) (change w)

end IsPrompt

/-! ### Tasks that yield -/

/-- The task finishes within a single poll and with this result, whatever state the host is in. -/
structure Yields (t : Task ω α) (a : α) : Prop where
  prompt : t.IsPrompt
  settles : t.Settles (some a)

namespace Yields

variable {t : Task ω α} {a : α}

theorem done (a : α) : (Task.done a : Task ω α).Yields a :=
  ⟨trivial, .done a⟩

theorem eq_of_returns (h : t.Yields a) {b : α} (hb : t.Returns b) : b = a :=
  Option.some.inj (h.settles.of_returns hb)

theorem bind {f : α → Task ω β} {b : β} (h : t.Yields a) (hf : (f a).Yields b) :
    (t.bind f).Yields b where
  prompt := h.prompt.bind fun c hc => by
    rw [h.eq_of_returns hc]
    exact hf.prompt
  settles := h.settles.bind (g := fun _ => some b) fun c hc => by
    obtain rfl := Option.some.inj hc
    exact hf.settles

theorem map (f : α → β) (h : t.Yields a) : (t.map f).Yields (f a) :=
  h.bind (.done (f a))

theorem zip {r : Task ω β} {b : β} (h : t.Yields a) (hr : r.Yields b) :
    (t.zip r).Yields (a, b) :=
  ⟨h.prompt.zip hr.prompt, h.settles.zip hr.settles⟩

theorem joinAll {ts : List (Task ω α)} {as : List α} (h : List.Forall₂ Yields ts as) :
    (Task.joinAll ts).Yields as := by
  induction h with
  | nil => exact .done []
  | cons ht _ ih => exact (ht.zip ih).map _

theorem complete (h : t.Yields a) (w : ω) : (t.complete w).1 = .ok a :=
  toOption_eq_some.1 (h.settles.complete w)

theorem runSync (h : t.Yields a) (w : ω) : (t.runSync w).1 = .ok a := by
  rw [runSync_eq_complete (h.prompt.not_suspends w), h.complete w]

end Yields

/-- The task finishes within a single poll and has one outcome, up to which fault it is, whatever
state the host is in. -/
def IsPure (t : Task ω α) : Prop :=
  t.IsPrompt ∧ ∃ result, t.Settles result

theorem IsPure.yields {t : Task ω α} (h : t.IsPure) {a : α} (ha : t.Returns a) : t.Yields a := by
  obtain ⟨hprompt, result, hsettles⟩ := h
  obtain rfl : some a = result := hsettles.of_returns ha
  exact ⟨hprompt, hsettles⟩

/-- What pure tasks can return they yield. -/
theorem yields_all {ts : List (Task ω α)} (hpure : ∀ t ∈ ts, t.IsPure) {as : List α}
    (h : List.Forall₂ Returns ts as) : List.Forall₂ Yields ts as := by
  induction h with
  | nil => exact .nil
  | cons ha _ ih =>
    obtain ⟨ht, hrest⟩ := List.forall_mem_cons.1 hpure
    exact .cons (ht.yields ha) (ih hrest)

end Reshape.Task
