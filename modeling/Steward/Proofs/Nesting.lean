/-
Nesting: how deep calls go.

The threads that are alive lie over each other, each one deeper than the one below, from the
depth at which the run was started.  So their number says how deep the run is (`Nested`), and
the limit on the depth is a limit on their number.

* **`Next.nested`** — a step keeps the order of depths;
* **`Frame.Nested.count_le`** — no more threads are alive than there are depths up to the limit;
* **`Nested.scope_le`**, **`Nested.toNat_depth`** — nothing that comes up is more than one beyond
  the limit, so that a machine word holds it;
* **`Passes.exceeded`** — only a call beyond the limit gives the error that says so;
* **`bounded_recursion`** — every run ends, within the limit, and when it ends with that error
  the call was the first one beyond.

Design notes: the inputs of a call are computed by the thread that makes the call, at its own
depth; only entering a call goes deeper.
-/
import Steward.Proofs.Failures
import Steward.Proofs.Gates

namespace Steward

/-! ### Depths -/

/-- How deep a call is that is made from here. -/
def Task.depth? : Task → Option Nat
  | call _ c => some c.scope.depth
  | construct _ _ _ scope => some scope.depth
  | commands _ t _ _ _ => some (t.scope.depth + 1)
  | command _ t _ _ => some (t.scope.depth + 1)
  | dispatched _ t _ _ => some (t.scope.depth + 1)
  | inputs _ t _ _ _ _ => some (t.scope.depth + 1)
  | done _ => none

namespace Frame

/-- How deep a call is that is made from here, or was, where its thread is alive. -/
def depth? : Frame → Option Nat
  | commands _ t _ _ => some (t.scope.depth + 1)
  | inputs _ t _ _ _ _ => some (t.scope.depth + 1)
  | object _ _ _ => none
  | thread _ t => some t.scope.depth

/-- How many threads are alive in frames. -/
def count (fs : List Frame) : Nat :=
  (fs.filterMap alive?).length

/-- Whether every call is as deep as the number of threads below it says, the first one being at
the depth `first`, and none that was entered is beyond the limit. -/
def Nested (limit first : Nat) : List Frame → Prop
  | [] => True
  | f :: fs =>
    (∀ n ∈ f.depth?, n = first + count fs) ∧ (∀ t ∈ f.alive?, t.scope.depth ≤ limit) ∧
      Nested limit first fs

variable {limit first : Nat} {fs : List Frame}

/-- The threads have the depths from the first one on. -/
theorem Nested.between (h : Nested limit first fs) :
    ∀ t ∈ fs.filterMap alive?, first ≤ t.scope.depth ∧ t.scope.depth ≤ limit := by
  induction fs with
  | nil => simp
  | cons f fs ih =>
    obtain ⟨hdepth, hlimit, hrest⟩ := h
    cases f with
    | thread held t =>
      have ht : t.scope.depth = first + count fs := hdepth _ rfl
      simp only [alive?, List.filterMap_cons, List.mem_cons, forall_eq_or_imp]
      exact ⟨⟨by omega, hlimit t rfl⟩, ih hrest⟩
    | commands | inputs | object => exact ih hrest

/-- There are no more of them than depths. -/
theorem Nested.count_le (h : Nested limit first fs) : count fs ≤ limit + 1 - first := by
  induction fs with
  | nil => simp [count]
  | cons f fs ih =>
    obtain ⟨hdepth, hlimit, hrest⟩ := h
    cases f with
    | thread held t =>
      have ht : t.scope.depth = first + count fs := hdepth _ rfl
      have htop : t.scope.depth ≤ limit := hlimit t rfl
      have hone : count (.thread held t :: fs) = count fs + 1 := rfl
      omega
    | commands | inputs | object => exact ih hrest

theorem Nested.scope_le (h : Nested limit first fs) :
    ∀ f ∈ fs, ∀ x ∈ f.scope?, x.depth ≤ max first (limit + 1) := by
  induction fs with
  | nil => simp
  | cons f fs ih =>
    obtain ⟨hdepth, -, hrest⟩ := h
    have hcount := hrest.count_le
    refine List.forall_mem_cons.mpr ⟨?_, ih hrest⟩
    cases f with
    | thread held t =>
      have ht : t.scope.depth = first + count fs := hdepth _ rfl
      rintro x ⟨⟩
      omega
    | commands held t | inputs held t =>
      have ht : t.scope.depth + 1 = first + count fs := hdepth _ rfl
      rintro x ⟨⟩
      omega
    | object => rintro x ⟨⟩

end Frame

namespace Moment

variable {env : Env} {m m' : Moment} {first : Nat}

/-- Whether the calls of a moment lie over each other, from the depth `first` on. -/
structure Nested (limit first : Nat) (m : Moment) : Prop where
  task : ∀ n ∈ m.task.depth?, n = first + m.threads.length
  frames : Frame.Nested limit first m.frames

/-- A result makes no calls. -/
theorem nested_done {limit : Nat} {fs : List Frame} (h : Frame.Nested limit first fs)
    (r : Except Error Context) (s : Store) : Nested limit first ⟨.done r, fs, s⟩ where
  task _ hn := by cases hn
  frames := h

/-- **A step keeps the depths in order**: to enter a call is to go one deeper, and with its
result the run comes back. -/
theorem Next.nested (h : Next env m m') (hm : m.Nested env.limit first) :
    m'.Nested env.limit first := by
  obtain ⟨htask, hframes⟩ := hm
  cases h with
  | @entered c s t s' held fs h he =>
    obtain ⟨-, -, hscope⟩ := Thread.enter_eq_ok he
    have ht : t.scope.depth = first + Frame.count fs := by
      rw [hscope]
      exact htask _ rfl
    refine ⟨?_, ?_, ?_, hframes⟩
    · rintro n ⟨⟩
      rw [ht, Nat.add_assoc]
      rfl
    · rintro n ⟨⟩
      exact ht
    · rintro u ⟨⟩
      rwa [hscope]
  | callConstructor h hr =>
    refine ⟨htask, ?_, ?_, hframes⟩
    · rintro n ⟨⟩
    · rintro t ⟨⟩
  | turn | input =>
    -- what waits belongs to the thread that goes on
    refine ⟨htask, htask, ?_, hframes⟩
    rintro t ⟨⟩
  | dispatch | create | prepare | invoke => exact ⟨htask, hframes⟩
  | @resume ctx f fs s =>
    obtain ⟨hdepth, -, hrest⟩ := hframes
    cases f with
    | commands | inputs => exact ⟨hdepth, hrest⟩
    | object => exact nested_done hrest _ _
    | thread held t =>
      dsimp only [Frame.resume]
      split
      · exact nested_done hrest _ _
      · exact nested_done hrest _ _
  | abandon => exact nested_done hframes.2.2 _ _
  | tooDeep | notEntered | made | noConstructor | finished | cancelled | denied | performed
  | failed | noScript => exact nested_done hframes _ _

/-- No depth that comes up is more than one beyond the limit, not even that of a call that is
refused, unless the run was started there. -/
theorem Nested.scope_le {limit : Nat} (h : m.Nested limit first) :
    ∀ x ∈ m.scopes, x.depth ≤ max first (limit + 1) := by
  obtain ⟨task, fs, s⟩ := m
  obtain ⟨htask, hframes⟩ := h
  have hcount : Frame.count fs ≤ limit + 1 - first := hframes.count_le
  intro x hx
  rcases mem_scopes.mp hx with hscope | ⟨f, hf, hscope⟩
  · cases task with
    | done => cases hscope
    | call held c =>
      have hc : c.scope.depth = first + Frame.count fs := htask _ rfl
      cases hscope
      omega
    | construct held ctx type scope =>
      have hc : scope.depth = first + Frame.count fs := htask _ rfl
      cases hscope
      omega
    | commands held t | command held t | dispatched held t | inputs held t =>
      have ht : t.scope.depth + 1 = first + Frame.count fs := htask _ rfl
      cases hscope
      omega
  · exact hframes.scope_le f hf x hscope

/-- **A machine word that holds the limit and one more holds every depth**, if it holds that of
the first call. -/
theorem Nested.toNat_depth {limit : Nat} (h : m.Nested limit first) (hfirst : first < UInt64.size)
    (hlimit : limit + 1 < UInt64.size) :
    ∀ x ∈ m.scopes, (UInt64.ofNat x.depth).toNat = x.depth := by
  intro x hx
  have hle : x.depth ≤ max first (limit + 1) := h.scope_le x hx
  exact UInt64.toNat_ofNat_of_lt (Nat.lt_of_le_of_lt hle (Nat.max_lt.mpr ⟨hfirst, hlimit⟩))

theorem Passes.nested (h : Passes env m m') (hm : m.Nested env.limit first) :
    m'.Nested env.limit first :=
  h.invariant Next.nested hm

/-! ### Beyond the limit -/

/-- **Who says that a call is too deep**: only the call itself, which is the first one beyond the
limit, if the run was started within. -/
theorem Passes.exceeded (h : Passes env m m') (hm : m.Nested env.limit first)
    (hfirst : first ≤ env.limit) (hstart : ∀ r, m.task ≠ .done r) {depth limit : Nat}
    (hm' : m'.task = .done (.error (.invokeDepthExceeded depth limit))) :
    depth = env.limit + 1 ∧ limit = env.limit := by
  obtain ⟨m₁, hpass, hraised⟩ := h.raises hstart hm'
  cases hraised with
  | ordinary h => cases h
  | @tooDeep held c hcall hdeep =>
    have hnested := Passes.nested hpass hm
    have hscope : c.scope ∈ m₁.scopes := mem_scopes_of_task (by rw [hcall, Task.scope?])
    have hle : c.scope.depth ≤ env.limit + 1 := by
      have hmax := hnested.scope_le c.scope hscope
      omega
    exact ⟨Nat.le_antisymm hle hdeep, rfl⟩

/-- **Bounded recursion.**  A call ends, however scripts and constructors call each other, and
whoever is cancelled in the course of it: no run of it goes on for ever, and from wherever it
stands it comes to an end, which is what `Env.run` gives if nobody is cancelled.  On the way every
thread is at a depth between that of the call and the limit, so that no more of them are alive at
a time than there are such depths; and every depth that comes up is a machine word, if the limit
and one more is.  If the call is refused for its depth, though it was started within the limit,
then what was refused is one beyond. -/
theorem bounded_recursion (env : Env) (held : Held) (c : Call) (s : Store) :
    (¬ ∃ ms : Nat → Moment, ms 0 = ⟨.call held c, [], s⟩ ∧ ∀ n, Moves env (ms n) (ms (n + 1))) ∧
    Undisturbed env ⟨.call held c, [], s⟩
      ⟨.done (env.run held c s).1, [], (env.run held c s).2⟩ ∧
    (∀ m, Passes env ⟨.call held c, [], s⟩ m →
      (∃ out, m.ComesTo env out) ∧
      (∀ t ∈ m.threads, c.scope.depth ≤ t.scope.depth ∧ t.scope.depth ≤ env.limit) ∧
      m.threads.length ≤ env.limit + 1 - c.scope.depth ∧
      (c.scope.depth < UInt64.size → env.limit + 1 < UInt64.size →
        ∀ x ∈ m.scopes, (UInt64.ofNat x.depth).toNat = x.depth)) ∧
    (c.scope.depth ≤ env.limit → ∀ out, ComesTo env ⟨.call held c, [], s⟩ out →
      ∀ depth limit, out.1 = .error (.invokeDepthExceeded depth limit) →
      depth = env.limit + 1 ∧ limit = env.limit) := by
  have hstart : Nested env.limit c.scope.depth ⟨.call held c, [], s⟩ := by
    refine ⟨?_, trivial⟩
    rintro n ⟨⟩
    rfl
  refine ⟨(halts env _).not_endless, undisturbed_outcome env ⟨.call held c, [], s⟩,
    fun m hm => ?_, fun hdepth out hout depth limit hr => ?_⟩
  · have hnested := hm.nested hstart
    exact ⟨⟨_, comesTo_outcome env m⟩, hnested.frames.between, hnested.frames.count_le,
      hnested.toNat_depth⟩
  · refine Passes.exceeded hout hstart hdepth (fun r hr => by cases hr) ?_
    exact congrArg Task.done hr

namespace Sample

/-- A script that calls itself by its name. -/
def loop : Script :=
  .mk 0 ⟨"Loop"⟩ [] none [⟨.invoke [] (.named ⟨"Loop"⟩), ∅⟩] none

def looping : Env where
  limit := 2
  catalog.libraries :=
    [{ name := "Loops", dependencies := [], registry := {}, scripts := [loop], statics := 0 }]

end Sample

theorem bounded_recursion_sample :
    (Sample.looping.run ∅ { script := Sample.loop } {}).1 = .error (.invokeDepthExceeded 3 2) ∧
    ∀ m, Passes Sample.looping ⟨.call ∅ { script := Sample.loop }, [], {}⟩ m →
      m.threads.length ≤ 2 ∧ ∀ x ∈ m.scopes, (UInt64.ofNat x.depth).toNat = x.depth := by
  obtain ⟨-, hrun, hmoments, hexceeded⟩ :=
    bounded_recursion Sample.looping ∅ { script := Sample.loop } {}
  have hend : Undisturbed Sample.looping ⟨.call ∅ { script := Sample.loop }, [], {}⟩ _ :=
    .head (.entered (by decide) rfl) <| .head (.turn rfl) <| .head (.dispatch (by decide)) <|
    .head (.prepare rfl rfl) <| .head .invoke <|
    .head (.entered (by decide) rfl) <| .head (.turn rfl) <| .head (.dispatch (by decide)) <|
    .head (.prepare rfl rfl) <| .head .invoke <| .head (.tooDeep (by decide)) <|
    .head .abandon <| .head .abandon <| .head .abandon <| .single .abandon
  have hresult := congrArg Prod.fst (undisturbed_done_iff.mp hend)
  obtain ⟨hdepth, hlimit⟩ := hexceeded (by decide) _ hrun.passes _ _ hresult
  refine ⟨?_, fun m hm => ?_⟩
  · rw [hresult, hdepth, hlimit]
    rfl
  · obtain ⟨-, -, hlength, hwords⟩ := hmoments m hm
    exact ⟨hlength, hwords (by decide) (by decide)⟩

end Moment

end Steward
