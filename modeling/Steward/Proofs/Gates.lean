/-
Gates: what a run may do decides only whether it is stopped.

Two gates can stop a run: the capabilities its threads hold, and the limit on the depth of its
calls.  Here the same run is looked at twice, once as it is and once with other capabilities
(`holding`) and another limit.

* **`Thread.perform_holding`**, **`Thread.enter_holding`** — past the gates nobody asks for the
  capabilities;
* **`Next.holding`** — where more is held and calls may nest deeper the same step is taken,
  unless a gate stopped the run;
* **`gates_only_deny`** — so a run that no gate stopped comes to the same there.

Design notes: nothing catches an error, so a gate that stopped a run is seen in its result
(`Next.isOpen`).
-/
import Steward.Proofs.Confinement

namespace Steward

/-- Whether one of the two gates gave the error. -/
def Error.isRefusal : Error → Bool
  | capabilityDenied .. | invokeDepthExceeded .. => true
  | _ => false

/-! ### With other capabilities -/

/-- The same scope with the capabilities `C`. -/
def Scope.holding (C : CapabilitySet) (x : Scope) : Scope :=
  { x with capabilities := C }

/-- The same call with the capabilities `C`. -/
def Call.holding (C : CapabilitySet) (c : Call) : Call :=
  { c with scope := c.scope.holding C }

/-- The same thread with the capabilities `C`. -/
def Thread.holding (C : CapabilitySet) (t : Thread) : Thread :=
  { t with scope := t.scope.holding C }

/-- The same task with the capabilities `C`. -/
def Task.holding (C : CapabilitySet) : Task → Task
  | call held c => call held (c.holding C)
  | construct held ctx type scope => construct held ctx type (scope.holding C)
  | commands held t completed ctx cs => commands held (t.holding C) completed ctx cs
  | command held t ctx c => command held (t.holding C) ctx c
  | dispatched held t ctx c => dispatched held (t.holding C) ctx c
  | inputs held t ctx script args rest => inputs held (t.holding C) ctx script args rest
  | done result => done result

/-- The same frame with the capabilities `C`. -/
def Frame.holding (C : CapabilitySet) : Frame → Frame
  | commands held t completed rest => commands held (t.holding C) completed rest
  | inputs held t ctx script args rest => inputs held (t.holding C) ctx script args rest
  | object held ctx o => object held ctx o
  | thread held t => thread held (t.holding C)

/-- The same moment with the capabilities `C`. -/
def Moment.holding (C : CapabilitySet) (m : Moment) : Moment where
  task := m.task.holding C
  frames := m.frames.map (Frame.holding C)
  store := m.store

namespace Thread

variable (C : CapabilitySet) (t : Thread)

theorem follow_holding (s : Store) (path : List String) (current : Context)
    (fields : List String) :
    (t.holding C).follow s path current fields = t.follow s path current fields := by
  induction fields generalizing current with
  | nil => rfl
  | cons field fields ih =>
    cases current with
    | none => rfl
    | some o =>
      simp only [follow, ih]
      rfl

theorem lookup_holding (s : Store) (path : List String) (ctx : Context) :
    (t.holding C).lookup s path ctx = t.lookup s path ctx := by
  cases ctx with
  | some o => exact follow_holding C t s path (some o) path
  | none =>
    cases path with
    | nil => rfl
    | cons first fields =>
      simp only [lookup, follow_holding]
      rfl

theorem assign_holding (s : Store) (target : List String) (value : Context) :
    (t.holding C).assign s target value = t.assign s target value := by
  simp only [assign, lookup_holding]
  rfl

/-- A primitive action does the same with other capabilities. -/
theorem perform_holding (s : Store) (ctx : Context) (p : Primitive) :
    (t.holding C).perform s ctx p = t.perform s ctx p := by
  cases p with
  | assign target =>
    simp only [perform, assign_holding]
  | lookup path =>
    simp only [perform, lookup_holding]
  | declare | self | native | clear => rfl

/-- A call is entered alike with other capabilities. -/
theorem enter_holding {s s' : Store} {script : Script} {invoker : Context}
    {args : List Context} {scope : Scope} {r : Except Error Thread}
    (h : enter s script invoker args scope = (r, s')) :
    enter s script invoker args (scope.holding C) = (r.map (holding C), s') := by
  rw [enter] at h ⊢
  split at h
  · cases h
    rw [if_pos (by assumption)]
    rfl
  · rw [if_neg (by assumption)]
    split at h
    · cases h
      rfl
    · cases h
      rfl

end Thread

/-- A frame goes on alike with other capabilities. -/
theorem Frame.resume_holding (C : CapabilitySet) (f : Frame) (ctx : Context) (s : Store) :
    (f.holding C).resume ctx s = ((f.resume ctx s).1.holding C, (f.resume ctx s).2) := by
  cases f with
  | commands | inputs | object => rfl
  | thread held t =>
    simp only [holding, resume, Thread.holding]
    cases t.script.result ctx with
    | error e => rfl
    | ok value => rfl

/-- An error goes out alike. -/
theorem Frame.abandon_holding (C : CapabilitySet) (f : Frame) (s : Store) :
    (f.holding C).abandon s = f.abandon s := by
  cases f with
  | commands | inputs | object | thread => rfl

namespace Moment

variable {env : Env} {m m' : Moment} {C C' : CapabilitySet} {limit : Nat}

/-- **One step, twice**: where more is held and calls may nest deeper the same step is taken,
unless a gate stopped the run. -/
theorem Next.holding (h : Next env m m') (hC : ∀ x ∈ m.scopes, ∀ a ∈ x.capabilities, a ∈ C')
    (hlimit : env.limit ≤ limit) :
    (∃ e, m'.task = .done (.error e) ∧ e.isRefusal = true) ∨
      Next { env with limit } (m.holding C') (m'.holding C') := by
  cases h with
  | tooDeep h => exact .inl ⟨_, rfl, rfl⟩
  | denied h => exact .inl ⟨_, rfl, rfl⟩
  | @dispatch held t ctx cmd fs s h =>
    have ht : ∀ a ∈ t.scope.capabilities, a ∈ C' := hC t.scope (by simp [-Frame.scope?])
    refine .inr (.dispatch (CapabilitySet.isSuperset_iff.mpr fun a ha => ?_))
    exact ht a (CapabilitySet.isSuperset_iff.mp h a ha)
  | notEntered h he => exact .inr (.notEntered (Nat.le_trans h hlimit) (Thread.enter_holding C' he))
  | entered h he => exact .inr (.entered (Nat.le_trans h hlimit) (Thread.enter_holding C' he))
  | made h => exact .inr (.made h)
  | noConstructor h hr => exact .inr (.noConstructor h hr)
  | callConstructor h hr => exact .inr (.callConstructor h hr)
  | finished => exact .inr .finished
  | cancelled h => exact .inr (.cancelled h)
  | turn h => exact .inr (.turn h)
  | performed ha h => exact .inr (.performed ha (by rwa [Thread.perform_holding]))
  | failed ha h => exact .inr (.failed ha (by rwa [Thread.perform_holding]))
  | create ha => exact .inr (.create ha)
  | noScript ha h => exact .inr (.noScript ha h)
  | prepare ha h => exact .inr (.prepare ha h)
  | input => exact .inr .input
  | invoke => exact .inr .invoke
  | @resume ctx f fs s =>
    have hnext : Next { env with limit }
        ⟨.done (.ok ctx), f.holding C' :: fs.map (Frame.holding C'), s⟩ _ := .resume
    rw [Frame.resume_holding] at hnext
    exact .inr hnext
  | @abandon e f fs s =>
    have hnext : Next { env with limit }
        ⟨.done (.error e), f.holding C' :: fs.map (Frame.holding C'), s⟩ _ := .abandon
    rw [Frame.abandon_holding] at hnext
    exact .inr hnext

/-- Whether no gate has stopped the run. -/
def IsOpen (m : Moment) : Prop :=
  ∀ e, m.task = .done (.error e) → e.isRefusal = false

/-- Nothing catches an error, so a run that no gate has stopped was not stopped before. -/
theorem Next.isOpen (h : Next env m m') (hopen : m'.IsOpen) : m.IsOpen := by
  intro e htask
  have hpass : Passes env m m' := .single h.moves
  exact hopen e (hpass.undisturbed_of_error htask).1

/-- If no gate has stopped the run, the same step is taken. -/
theorem Next.holding_of_isOpen (h : Next env m m')
    (hC : ∀ x ∈ m.scopes, ∀ a ∈ x.capabilities, a ∈ C') (hlimit : env.limit ≤ limit)
    (hopen : m'.IsOpen) : Next { env with limit } (m.holding C') (m'.holding C') := by
  rcases h.holding hC hlimit with ⟨e, htask, hrefused⟩ | hnext
  · rw [hopen e htask] at hrefused
    cases hrefused
  · exact hnext

/-- More is held at every moment if it is at the first. -/
theorem Passes.holds (h : Passes env m m') (hC : ∀ x ∈ m.scopes, ∀ a ∈ x.capabilities, a ∈ C') :
    ∀ x ∈ m'.scopes, ∀ a ∈ x.capabilities, a ∈ C' :=
  h.scopes (P := fun x => ∀ a ∈ x.capabilities, a ∈ C') (fun _ hx => hx) hC

/-- **A whole run, twice**: if no gate stopped it, all its steps are taken, with the same tokens
cancelled. -/
theorem Passes.holding (h : Passes env m m')
    (hC : ∀ x ∈ m.scopes, ∀ a ∈ x.capabilities, a ∈ C') (hlimit : env.limit ≤ limit)
    (hopen : m'.IsOpen) : Passes { env with limit } (m.holding C') (m'.holding C') := by
  induction h with
  | refl => exact .refl
  | tail hpass hmove ih =>
    obtain ⟨cancelled, hnext⟩ := hmove
    have hnext' := hnext.holding_of_isOpen (Passes.holds hpass hC) hlimit hopen
    exact .tail (ih (hnext.isOpen hopen)) ⟨cancelled, hnext'⟩

/-- So it is with a run in the course of which nobody is cancelled. -/
theorem Undisturbed.holding (h : Undisturbed env m m')
    (hC : ∀ x ∈ m.scopes, ∀ a ∈ x.capabilities, a ∈ C') (hlimit : env.limit ≤ limit)
    (hopen : m'.IsOpen) : Undisturbed { env with limit } (m.holding C') (m'.holding C') := by
  induction h with
  | refl => exact .refl
  | tail hpass hnext ih =>
    have hnext' := hnext.holding_of_isOpen (Passes.holds (Undisturbed.passes hpass) hC) hlimit hopen
    exact .tail (ih (hnext.isOpen hopen)) hnext'

end Moment

theorem Task.scope?_holding {C : CapabilitySet} (task : Task) {x : Scope}
    (h : (task.holding C).scope? = some x) : x.capabilities = C := by
  cases task with
  | done => cases h
  | call | construct | commands | command | dispatched | inputs =>
    cases h
    rfl

theorem Task.holding_holding {C C' : CapabilitySet} (task : Task) :
    (task.holding C).holding C' = task.holding C' := by
  cases task with
  | call | construct | commands | command | dispatched | inputs | done => rfl

/-- The one scope of a task that has just begun holds `C`. -/
theorem Task.scopes_holding {C C' : CapabilitySet} (hC : ∀ a ∈ C, a ∈ C') (task : Task)
    (s : Store) : ∀ x ∈ Moment.scopes ⟨task.holding C, [], s⟩, ∀ a ∈ x.capabilities, a ∈ C' := by
  intro x hx
  rw [scope?_holding task (by simpa [-Task.scope?] using hx)]
  exact hC

namespace Moment

theorem isOpen_done {r : Except Error Context} {s : Store}
    (h : ∀ e, r = .error e → e.isRefusal = false) : IsOpen ⟨.done r, [], s⟩ := by
  rintro e ⟨rfl⟩
  exact h e rfl

end Moment

/-- What a task comes to if no gate stops it, it comes to with more capabilities and more
depth. -/
theorem Task.outcome_holding {env : Env} {limit : Nat} (hlimit : env.limit ≤ limit)
    {C C' : CapabilitySet} (hC : ∀ a ∈ C, a ∈ C') (task : Task) {s s' : Store}
    {r : Except Error Context} (h : (task.holding C).outcome env s = (r, s'))
    (hopen : ∀ e, r = .error e → e.isRefusal = false) :
    (task.holding C').outcome { env with limit } s = (r, s') := by
  have hout : Moment.outcome env ⟨task.holding C, [], s⟩ = (r, s') := h
  have hend := Moment.undisturbed_outcome env ⟨task.holding C, [], s⟩
  rw [hout] at hend
  have hend' := hend.holding (task.scopes_holding hC s) hlimit (Moment.isOpen_done hopen)
  rw [← task.holding_holding (C := C)]
  exact hend'.outcome_eq.symm

/-- So it is with everything it can come to. -/
theorem Moment.ComesTo.holding {env : Env} {limit : Nat} (hlimit : env.limit ≤ limit)
    {C C' : CapabilitySet} (hC : ∀ a ∈ C, a ∈ C') {task : Task} {s s' : Store}
    {r : Except Error Context} (h : ComesTo env ⟨task.holding C, [], s⟩ (r, s'))
    (hopen : ∀ e, r = .error e → e.isRefusal = false) :
    ComesTo { env with limit } ⟨task.holding C', [], s⟩ (r, s') := by
  have hend := Passes.holding h (task.scopes_holding hC s) hlimit (isOpen_done hopen)
  rw [← task.holding_holding (C := C)]
  exact hend

namespace Moment

/-- **The gates only deny.**  What is run with the capabilities `C` and is not refused by a gate
comes to the same, with the same store, when more capabilities are held and calls may nest
deeper: a call of any script, and commands that a thread executes.  And whatever a run can come to
if somebody is cancelled in the course of it, it can then come to as well. -/
theorem gates_only_deny {env : Env} {limit : Nat} (hlimit : env.limit ≤ limit)
    {C C' : CapabilitySet} (hC : ∀ a ∈ C, a ∈ C') {held : Held} {s s' : Store}
    {r : Except Error Context} (hr : ∀ e, r = .error e → e.isRefusal = false) :
    (∀ c : Call, env.run held (c.holding C) s = (r, s') →
      { env with limit }.run held (c.holding C') s = (r, s')) ∧
    (∀ (t : Thread) (ctx : Context) (cs : List Command),
      env.executeAll held (t.holding C) ctx cs s = (r, s') →
      { env with limit }.executeAll held (t.holding C') ctx cs s = (r, s')) ∧
    (∀ task : Task, ComesTo env ⟨task.holding C, [], s⟩ (r, s') →
      ComesTo { env with limit } ⟨task.holding C', [], s⟩ (r, s')) := by
  refine ⟨fun c h => ?_, fun t ctx cs h => ?_, fun task h => ?_⟩
  · exact Task.outcome_holding hlimit hC (.call held c) h hr
  · exact Task.outcome_holding hlimit hC (.commands held t 0 ctx cs) h hr
  · exact h.holding hlimit hC hr

namespace Sample

/-- All that the scripts take. -/
def enough : CapabilitySet :=
  .ofList ["log", "read", "write"]

end Sample

theorem gates_only_deny_sample :
    (Sample.env.run ∅ (Sample.call.holding Sample.enough) {}).1 = .ok none ∧
    { Sample.env with limit := 5 }.run ∅
        (Sample.call.holding (Sample.enough.insert "admin")) {} =
      Sample.env.run ∅ (Sample.call.holding Sample.enough) {} := by
  -- the caller begins, computes the argument and calls
  have hcall : Undisturbed Sample.env ⟨.call ∅ (Sample.call.holding Sample.enough), [], {}⟩ _ :=
    .head (.entered (by decide) rfl) <| .head (.turn rfl) <| .head (.dispatch (by decide)) <|
    .head (.prepare rfl rfl) <| .head .input <| .head (.turn rfl) <|
    .head (.dispatch (by decide)) <| .head (.performed rfl rfl) <| .head .resume <|
    .head .finished <| .head .resume <| .single .invoke
  -- the callee does both of its commands, and both return
  have hend : Undisturbed Sample.env ⟨.call ∅ (Sample.call.holding Sample.enough), [], {}⟩ _ :=
    hcall.trans <| .head (.entered (by decide) rfl) <| .head (.turn rfl) <|
    .head (.dispatch (by decide)) <| .head (.performed rfl rfl) <| .head .resume <|
    .head (.turn rfl) <| .head (.dispatch (by decide)) <| .head (.performed rfl rfl) <|
    .head .resume <| .head .finished <| .head .resume <| .head .resume <| .head .finished <|
    .single .resume
  have hrun := undisturbed_done_iff.mp hend
  have hmore : { Sample.env with limit := 5 }.run ∅
      (Sample.call.holding (Sample.enough.insert "admin")) {} = _ :=
    (gates_only_deny (by decide) (by decide) (by simp)).1 Sample.call hrun
  exact ⟨congrArg Prod.fst hrun, hmore.trans hrun.symm⟩

end Moment

end Steward
