import Reshape.Proofs.Path.Descent
import Reshape.Proofs.Shape.SingleField

/-!
# Containers of a sequence

An iterating shape puts the sequence on the context, on top of the frames of the keys that led to
it. So the parent moves of a field count from the item: the first one reaches the sequence, the
next one the value that the last key was read from, and so on up to the input
(`extract_containers`). What a field reads from there is what a run of fewer keys and the same path
reads from the input (`run_containers`).
-/

namespace Reshape

variable {ω : Type}

/-! ### Reading from a container -/

namespace Path

/-- The frames of keys and of one more descent, here into the items of a sequence: parent moves
reach what all but the last of the keys read. -/
theorem extract_containers {ns : Nonvalues} {p q : List Move} (hp : ∀ m ∈ p, m.isKey)
    (hq : ∀ m ∈ q, m.isKey) {j : Nat} (hj : 0 < j) (hle : j ≤ p.length + 1) (v item : Value)
    (c : Context) :
    (extract ns (List.replicate j .parent ++ q) item
        ((extract ns p v c).2.push (extract ns p v c).1)).1 =
      (extract ns (p.take (p.length + 1 - j) ++ q) v c).1 := by
  -- The descent into the items counts as a key behind `p`: it leaves the same frame.
  let inward : Move := .index 0
  obtain ⟨m, rest, hback⟩ : ∃ m rest, p.drop (p.length + 1 - j) ++ [inward] = m :: rest :=
    List.exists_cons_of_ne_nil (by simp)
  have hkeys : ∀ n ∈ m :: rest, n.isKey := by
    rw [← hback]
    intro n hn
    rcases List.mem_append.1 hn with hn | hn
    · exact hp n (List.mem_of_mem_drop hn)
    · obtain rfl := List.mem_singleton.1 hn
      rfl
  obtain ⟨hm, hrest⟩ := List.forall_mem_cons.1 hkeys
  have hcount : (m :: rest).countP Move.isKey = j := by
    rw [List.countP_eq_length.2 hkeys, ← hback]
    simp only [List.length_append, List.length_drop, List.length_singleton]
    omega
  generalize hr : (p.take (p.length + 1 - j)).foldl (Reading.step ns)
    { value := v, context := c } = r
  have hframes : (extract ns p v c).2.push (extract ns p v c).1 =
      ((m :: rest).foldl (Reading.step ns) r).context := by
    rw [← hback, ← hr, ← List.foldl_append, ← List.append_assoc, List.take_append_drop,
      List.foldl_append]
    rfl
  have hseam {front : List Move} : ∀ a ∈ front.getLast?, ∀ b ∈ q.head?,
      Move.heeds .extract a b = false := by
    intro a _ b hb
    have hkey : b.isKey := hq b (List.mem_of_head? hb)
    exact a.heeds_extract_of_ne_each fun h => nomatch h ▸ hkey
  have hstart : extract ns (p.take (p.length + 1 - j)) v c = (r.value, r.context) := by
    rw [extract, hr]
  rw [extract_append hseam, extract_append hseam, hframes, hstart, ← hcount,
    extract_climb_back hm fun n hn => .inl (hrest n hn)]

end Path

/-! ### Runs -/

/-- The shape that binds a name in each item of a sequence to what a path reads from there. -/
def Shape.eachReading (key name : String) (moves : List Move) (noDefaults always : Bool) :
    Shape (Step ω) where
  fields := [Field.setting key (Step.ofMoves false moves) [name]]
  iterate := true
  noDefaults := noDefaults
  always := always

section
variable {s : State} (hs : s.effective = .forward)
include hs

variable (ht : s.target = none) (hns : s.nonvalues.Scalar)
include ht hns

/-- A field that reads a path, alone in its shape, in a forward run without a target. -/
theorem assemble_reading (moves : List Move) (name : String) (v : Value) :
    assemble [Branch.setting (Step.ofMoves false moves : Pipeline ω) [name]] v s =
      .done (Value.wrap s.nonvalues [name] (Path.extract s.nonvalues moves v s.context).1) := by
  have hname : [name] ≠ [] := List.cons_ne_nil name []
  have hreads : false = s.isReverse := (congrArg Direction.isReverse hs).symm
  have hrun := runSteps_key_forward hs ht hns hname (endsOutside_moves (ω := ω) moves).unbuilt v
  rw [assemble_single ht hns hname hrun, runSteps_extract hreads, Task.map_done]

theorem runShape_eachReading (key name : String) (moves : List Move) (noDefaults always : Bool)
    (xs : List Value) :
    runShape (.eachReading key name moves noDefaults always : Shape (Step ω)) (.seq xs) s =
      .done (.seq (xs.map fun x => if s.isNonvalue x && !always then x else
        Value.wrap s.nonvalues [name]
          (Path.extract s.nonvalues moves x (s.context.push (.seq xs))).1)) := by
  refine runShape_items rfl rfl ht fun x _ => ?_
  have hinside : (((Shape.eachReading key name moves noDefaults always : Shape (Step ω)).enter
      s).pushContext (.seq xs)).effective = .forward := by
    rw [← hs]
    exact congrArg s.direction.flippedBy (Bool.xor_false s.flip)
  rw [Shape.eachReading, branches_setting key _ (List.cons_ne_nil name [])]
  exact assemble_reading hinside ht hns moves name x

end

/-- In a forward run, `j` parent moves in the field of an iterating shape lead from an item to what
all but the last `j - 1` of the keys in front of the shape read from the input: for `j = 1` it is
the sequence itself, and for one move more than there are keys the input. So the field binds in
every item what a run along those keys and the rest of its path gives. -/
theorem run_containers {p q : List Move} (hp : ∀ m ∈ p, m.isKey) (hq : ∀ m ∈ q, m.isKey) {j : Nat}
    (hj : 0 < j) (hle : j ≤ p.length + 1) (key name : String) (noDefaults always : Bool)
    {o : Options} (ho : o.direction.flippedBy o.flip = .forward) (ht : o.target = none)
    (hns : o.nonvalues.Scalar) {v : Value} {xs : List Value} {w : ω}
    (hxs : Pipeline.run (Step.ofMoves false p) v o w = (.ok (.seq xs), w)) :
    ∃ z : Value,
      Pipeline.run (Step.ofMoves false (p.take (p.length + 1 - j) ++ q)) v o w = (.ok z, w) ∧
      let shape : Shape (Step ω) :=
        .eachReading key name (List.replicate j .parent ++ q) noDefaults always
      let entry : Value := if o.nonvalues.contains z then .map [] else .map [(name, z)]
      let items := xs.map fun x => if o.nonvalues.contains x && !always then x else entry
      Pipeline.run (Step.ofMoves false p ++ [.shape shape]) v o w = (.ok (.seq items), w) ∧
        Pipeline.runAsync (Step.ofMoves false p ++ [.shape shape]) v o w =
          (.ok (.seq items), w) := by
  have hv : o.nonvalues.contains v = false := by
    refine Bool.eq_false_iff.2 fun hv => ?_
    have hskipped := run_nonvalue hv (p.map (.move · false)) w
    simp [Step.ofMoves, hskipped] at hxs
  have hgate : (State.ofOptions o).isNonvalue v = false := hv
  have hs : (State.ofOptions o).effective = .forward := ho
  have hreads : false = (State.ofOptions o).isReverse := (congrArg Direction.isReverse hs).symm
  have hread (moves : List Move) : Pipeline.run (Step.ofMoves false moves) v o w =
      (.ok (Path.extract o.nonvalues moves v []).1, w) := by
    rw [Pipeline.run, start_moves hreads, hgate]
    rfl
  have hseq : (Path.extract o.nonvalues p v []).1 = .seq xs := by
    simpa [hread] using hxs
  refine ⟨_, hread _, ?_⟩
  intro shape entry items
  have hseam : ∀ a ∈ p.getLast?, ∀ b,
      ([.shape shape] : Pipeline ω).head? = some (.path (.move b false)) →
        Move.heeds .extract a b = false := by simp
  have hentry (x : Value) : Value.wrap o.nonvalues [name] (Path.extract o.nonvalues
      (List.replicate j .parent ++ q) x ((Path.extract o.nonvalues p v []).2.push (.seq xs))).1 =
        entry := by
    rw [← hseq, Path.extract_containers hp hq hj hle, Value.wrap_name]
  let below : State := (State.ofOptions o).withContext (Path.extract o.nonvalues p v []).2
  have hbelow : below.effective = .forward := ho
  have hstart : Pipeline.start (Step.ofMoves false p ++ [.shape shape]) v (.ofOptions o) =
      .done (.seq items) := by
    rw [start_present hgate, runSteps_read_append hs hseam, runSteps_shape]
    change runShape shape (Path.extract o.nonvalues p v []).1 below = _
    rw [hseq]
    refine (runShape_eachReading hbelow ht hns key name _ noDefaults always xs).trans ?_
    exact congrArg (fun f : Value → Value => Task.done (Value.seq (xs.map f)))
      (funext fun x => congrArg (ite _ x) (hentry x))
  exact ⟨congrArg (Task.runSync · w) hstart, congrArg (Task.complete · w) hstart⟩

/-- Three parent moves from an item of `user.posts` reach the input; a nonvalue among the items
stays, and two of the moves reach the user. -/
theorem run_containers_input :
    let p : List Move := [.field "user", .field "posts"]
    let o : Options := { nonvalues := ⟨[.null]⟩ }
    let v : Value := .map [("site", .map [("id", .str "s")]),
      ("user", .map [("posts", .seq [.str "x", .null])])]
    Pipeline.run (Step.ofMoves false p : Pipeline Unit) v o () =
        (.ok (.seq [.str "x", .null]), ()) ∧
      Pipeline.run (Step.ofMoves false p ++ [.shape (.eachReading "site" "site"
          (List.replicate 3 .parent ++ [.field "site", .field "id"]) false false)] : Pipeline Unit)
        v o () = (.ok (.seq [.map [("site", .str "s")], .null]), ()) ∧
      Pipeline.run (Step.ofMoves false p ++ [.shape (.eachReading "site" "site"
          (List.replicate 2 .parent ++ [.field "site", .field "id"]) false true)] : Pipeline Unit)
        v o () = (.ok (.seq [.map [], .map []]), ()) := by
  intro p o v
  have hp : ∀ m ∈ p, m.isKey := by simp [p, Move.isKey]
  have hq : ∀ m ∈ ([.field "site", .field "id"] : List Move), m.isKey := by simp [Move.isKey]
  have hxs : Pipeline.run (Step.ofMoves false p : Pipeline Unit) v o () =
      (.ok (.seq [.str "x", .null]), ()) := rfl
  have hinput := run_containers hp hq (j := 3) (by decide) (by decide) "site" "site" false false
    (o := o) rfl rfl (by decide) hxs
  have huser := run_containers hp hq (j := 2) (by decide) (by decide) "site" "site" false true
    (o := o) rfl rfl (by decide) hxs
  obtain ⟨z, hz, hinput, -⟩ := hinput
  obtain ⟨z', hz', huser, -⟩ := huser
  cases (hz.symm : ((.ok z, ()) : Except Fault Value × Unit) = (.ok (.str "s"), ()))
  cases (hz'.symm : ((.ok z', ()) : Except Fault Value × Unit) = (.ok .absent, ()))
  exact ⟨hxs, hinput, huser⟩

end Reshape
