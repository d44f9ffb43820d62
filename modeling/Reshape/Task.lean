import Reshape.Fault

/-!
# Tasks

A computation that may fail, may suspend, and may touch the state `ω` of the host. `poll` runs a
task up to its next suspension, `complete` to its end. `joinAll` runs tasks side by side: each poll
polls the unfinished ones in order, and the first failure ends them all.
-/

namespace Reshape

inductive Task (ω α : Type) where
  | done (a : α)
  | fail (e : Fault)
  /-- Suspends once. -/
  | wait (rest : Task ω α)
  /-- Looks at the host's state, changes it, and goes on by what it saw. -/
  | act (change : ω → ω) (next : ω → Task ω α)

namespace Task

variable {ω α β γ : Type}

def bind (t : Task ω α) (f : α → Task ω β) : Task ω β :=
  match t with
  | done a => f a
  | fail e => fail e
  | wait rest => wait (rest.bind f)
  | act change next => act change fun w => (next w).bind f

instance : Monad (Task ω) where
  pure := done
  bind := bind

def map (f : α → β) (t : Task ω α) : Task ω β :=
  t.bind fun a => done (f a)

/-- A task that finishes at once with a result computed from the host's state. -/
def ofState (f : ω → Except Fault α × ω) : Task ω α :=
  act (fun w => (f w).2) fun w =>
    match (f w).1 with
    | .ok a => done a
    | .error e => fail e

/-- Runs a task up to its first suspension inside the same poll, and goes on with its result or
with what is left of it. -/
def advance (t : Task ω α) (f : α ⊕ Task ω α → Task ω β) : Task ω β :=
  match t with
  | done a => f (.inl a)
  | fail e => fail e
  | wait rest => f (.inr rest)
  | act change next => act change fun w => (next w).advance f

/-- Two tasks side by side, the left one polled first. -/
def zip (l : Task ω α) (r : Task ω β) : Task ω (α × β) :=
  match l with
  | done a => r.map fun b => (a, b)
  | fail e => fail e
  | wait l => r.advance fun
    | .inl b => wait (l.map fun a => (a, b))
    | .inr r => wait (l.zip r)
  | act change next => act change fun w => (next w).zip r

/-- All tasks side by side, polled and answered in order. -/
def joinAll : List (Task ω α) → Task ω (List α)
  | [] => done []
  | t :: ts => (t.zip (joinAll ts)).map fun (a, as) => a :: as

/-- One task after the other, for each item of a list. -/
def forItems (f : α → Task ω β) : List α → Task ω (List β)
  | [] => done []
  | a :: rest => do
    let b ← f a
    let bs ← forItems f rest
    done (b :: bs)

/-- Where a poll leaves a task. -/
inductive Progress (ω α : Type) where
  | finished (result : Except Fault α)
  | pending (rest : Task ω α)

def poll (t : Task ω α) (w : ω) : Progress ω α × ω :=
  match t with
  | done a => (.finished (.ok a), w)
  | fail e => (.finished (.error e), w)
  | wait rest => (.pending rest, w)
  | act change next => (next w).poll (change w)

/-- The result of a single poll; a task that suspends fails. -/
def runSync (t : Task ω α) (w : ω) : Except Fault α × ω :=
  match t.poll w with
  | (.finished r, w) => (r, w)
  | (.pending _, w) => (.error .unfinished, w)

/-- The result of polling until the task has finished. -/
def complete (t : Task ω α) (w : ω) : Except Fault α × ω :=
  match t with
  | done a => (.ok a, w)
  | fail e => (.error e, w)
  | wait rest => rest.complete w
  | act change next => (next w).complete (change w)

@[simp] theorem done_bind (a : α) (f : α → Task ω β) : (done a).bind f = f a := rfl

theorem bind_def (t : Task ω α) (f : α → Task ω β) : t >>= f = t.bind f := rfl

@[simp] theorem map_done (f : α → β) (a : α) : (done a : Task ω α).map f = done (f a) := rfl

@[simp] theorem bind_done (t : Task ω α) : t.bind done = t := by
  induction t with
  | done | fail => rfl
  | wait rest ih => simp [bind, ih]
  | act change next ih => simp [bind, ih]

theorem bind_assoc (t : Task ω α) (f : α → Task ω β) (g : β → Task ω γ) :
    (t.bind f).bind g = t.bind fun a => (f a).bind g := by
  induction t with
  | done | fail => rfl
  | wait rest ih => simp [bind, ih]
  | act change next ih => simp [bind, ih]

instance : LawfulMonad (Task ω) :=
  LawfulMonad.mk' _ (fun t => bind_done t) (fun _ _ => rfl) bind_assoc

theorem map_bind (f : α → β) (t : Task ω α) (g : β → Task ω γ) :
    (t.map f).bind g = t.bind fun a => g (f a) :=
  bind_assoc t _ g

theorem map_map (f : α → β) (g : β → γ) (t : Task ω α) : (t.map f).map g = t.map fun a => g (f a) :=
  map_bind f t _

theorem bind_map (t : Task ω α) (f : α → Task ω β) (g : β → γ) :
    (t.bind f).map g = t.bind fun a => (f a).map g :=
  bind_assoc t f _

theorem bind_congr {t : Task ω α} {f g : α → Task ω β} (h : ∀ a, f a = g a) :
    t.bind f = t.bind g :=
  congrArg t.bind (funext h)

/-- Finished tasks are joined at once. -/
theorem joinAll_done (as : List α) : joinAll (as.map done) = (done as : Task ω (List α)) := by
  induction as with
  | nil => rfl
  | cons a as ih => simp [joinAll, zip, ih]

private theorem zip_nil (t : Task ω α) :
    t.zip (done [] : Task ω (List α)) = t.map fun a => (a, []) := by
  induction t with
  | done | fail | wait => rfl
  | act change next ih => exact congrArg (act change) (funext ih)

theorem joinAll_singleton (t : Task ω α) : joinAll [t] = t.map fun a => [a] := by
  rw [joinAll, joinAll, zip_nil, map, map_bind]
  rfl

/-- Taking the right result on does not show in how the tasks run. -/
theorem zip_map (l : Task ω α) (r : Task ω β) (f : β → γ) :
    l.zip (r.map f) = (l.zip r).map fun x => (x.1, f x.2) := by
  induction l generalizing r with
  | done a => simp only [zip, map_map]
  | fail e => rfl
  | wait l ih =>
    induction r with
    | done b => exact congrArg wait (map_map (·, b) (fun x => (x.1, f x.2)) l).symm
    | fail e => rfl
    | wait r => exact congrArg wait (ih r)
    | act change next ihr => exact congrArg (act change) (funext ihr)
  | act change next ih => exact congrArg (act change) (funext fun w => ih w r)

/-- Nor does taking the left result on. -/
theorem map_zip (l : Task ω α) (r : Task ω β) (f : α → γ) :
    (l.map f).zip r = (l.zip r).map fun x => (f x.1, x.2) := by
  induction l generalizing r with
  | done a => exact (map_map (a, ·) (fun x => (f x.1, x.2)) r).symm
  | fail e => rfl
  | wait l ih =>
    induction r with
    | done b =>
      exact congrArg wait ((map_map f (·, b) l).trans
        (map_map (·, b) (fun x => (f x.1, x.2)) l).symm)
    | fail e => rfl
    | wait r => exact congrArg wait (ih r)
    | act change next ihr => exact congrArg (act change) (funext ihr)
  | act change next ih => exact congrArg (act change) (funext fun w => ih w r)

/-- What is made of the results of tasks, one by one, can be made of them in the end. -/
theorem joinAll_map (t : α → Task ω β) (f : α → β → γ) (as : List α) :
    joinAll (as.map fun a => (t a).map (f a)) =
      (joinAll (as.map t)).map (List.zipWith f as) := by
  induction as with
  | nil => rfl
  | cons a rest ih =>
    simp only [List.map_cons, joinAll, ih, map_zip, zip_map, map_map, List.zipWith_cons_cons]

/-- A finished task among others only puts its result in its place. -/
theorem joinAll_insert_done (ts us : List (Task ω α)) (a : α) :
    joinAll (ts ++ done a :: us) = (joinAll (ts ++ us)).map (·.insertIdx ts.length a) := by
  induction ts with
  | nil =>
    simp only [List.nil_append, joinAll, zip, map_map, List.length_nil, List.insertIdx_zero]
  | cons t ts ih =>
    simp only [List.cons_append, joinAll, ih, zip_map, map_map, List.length_cons,
      List.insertIdx_succ_cons]

theorem forItems_done {f : α → Task ω β} {g : α → β} (h : ∀ a, f a = done (g a)) (as : List α) :
    forItems f as = done (as.map g) := by
  induction as with
  | nil => rfl
  | cons a rest ih => simp [forItems, bind_def, h, ih]

theorem forItems_congr {f g : α → Task ω β} {as : List α} (h : ∀ a ∈ as, f a = g a) :
    forItems f as = forItems g as := by
  induction as with
  | nil => rfl
  | cons a rest ih =>
    obtain ⟨ha, hrest⟩ := List.forall_mem_cons.1 h
    simp only [forItems, ha, ih hrest]

/-- What is made of the results of items, item by item, can be made of them in the end. -/
theorem forItems_map (f : α → Task ω β) (g : α → β → γ) (as : List α) :
    forItems (fun a => (f a).map (g a)) as = (forItems f as).map (List.zipWith g as) := by
  induction as with
  | nil => rfl
  | cons a rest ih =>
    simp only [forItems, bind_def, ih, map_bind, bind_map, map_done, List.zipWith_cons_cons]

theorem complete_bind (t : Task ω α) (f : α → Task ω β) (w : ω) :
    (t.bind f).complete w = match t.complete w with
      | (.ok a, w) => (f a).complete w
      | (.error e, w) => (.error e, w) := by
  induction t generalizing w with
  | done | fail => rfl
  | wait rest ih => exact ih w
  | act change next ih => exact ih w (change w)

theorem poll_bind (t : Task ω α) (f : α → Task ω β) (w : ω) :
    (t.bind f).poll w = match t.poll w with
      | (.finished (.ok a), w) => (f a).poll w
      | (.finished (.error e), w) => (.finished (.error e), w)
      | (.pending rest, w) => (.pending (rest.bind f), w) := by
  induction t generalizing w with
  | done | fail => rfl
  | wait rest => rfl
  | act change next ih => exact ih w (change w)

theorem runSync_bind (t : Task ω α) (f : α → Task ω β) (w : ω) :
    (t.bind f).runSync w = match t.runSync w with
      | (.ok a, w) => (f a).runSync w
      | (.error e, w) => (.error e, w) := by
  rw [runSync, poll_bind, runSync]
  rcases t.poll w with ⟨⟨_ | _⟩ | _, w⟩ <;> rfl

theorem runSync_map (f : α → β) (t : Task ω α) (w : ω) :
    (t.map f).runSync w = ((t.runSync w).1.map f, (t.runSync w).2) := by
  rw [map, runSync_bind]
  rcases t.runSync w with ⟨_ | _, w⟩ <;> rfl

theorem complete_map (f : α → β) (t : Task ω α) (w : ω) :
    (t.map f).complete w = ((t.complete w).1.map f, (t.complete w).2) := by
  rw [map, complete_bind]
  rcases t.complete w with ⟨_ | _, w⟩ <;> rfl

end Task

end Reshape
