/-
Failures: which errors a run can end with, and where they come from.

Most errors are about memory: a slot that is not there, a value that does not fit, a group that
was released.  Whatever a command does by itself fails with one of these, if it fails.  The others
have one place each in a run: a call that is too deep, a command that its thread may not execute, a
thread that is cancelled, a name under which there is no script.

* **`Thread.ordinary_perform`**, **`Thread.ordinary_enter`** — what primitive actions and entering
  a call can fail with;
* **`Next.raises`** — an error is handed on from one moment to the next, or it is raised there
  (`Raises`);
* **`Passes.raises`** — so every error that a run comes to was raised at some moment of it.
-/
import Steward.Proofs.Moments

namespace Steward

/-- Whether an error is about memory: slots, groups, payloads or arguments. -/
def Error.isOrdinary : Error → Bool
  | binding .. | missingKey _ | typeMismatch .. | releasedGroup _ | notWritable
  | argumentCount .. => true
  | _ => false

/-! ### Ordinary errors -/

/-- Whether the error, if there is one, is an ordinary one. -/
def Ordinary (x : Except Error α) : Prop :=
  ∀ e, x = .error e → e.isOrdinary = true

@[simp]
theorem ordinary_ok {a : α} : Ordinary (.ok a : Except Error α) := by
  intro e h
  cases h

@[simp]
theorem ordinary_error {e : Error} :
    Ordinary (.error e : Except Error α) ↔ e.isOrdinary = true := by
  simp [Ordinary]

/-- An error is handed on as it is. -/
theorem Ordinary.error {x : Except Error α} {e : Error} (hx : Ordinary x) (h : x = .error e) :
    Ordinary (.error e : Except Error β) :=
  ordinary_error.mpr (hx e h)

theorem ordinary_bind {x : Except Error α} {f : α → Except Error β} (hx : Ordinary x)
    (hf : ∀ a, Ordinary (f a)) : Ordinary (x >>= f) := by
  cases x with
  | error e => exact hx.error rfl
  | ok a => exact hf a

theorem ordinary_check (key : Key) (value : Option ObjectRef) : Ordinary (key.check value) := by
  unfold Key.check
  split
  · exact ordinary_ok
  · split
    · exact ordinary_ok
    · exact ordinary_error.mpr rfl

namespace Group

theorem ordinary_get (g : Group) (key : Key) : Ordinary (g.get key) := by
  unfold get
  split
  · exact ordinary_ok
  · exact ordinary_error.mpr rfl

theorem ordinary_set (g : Group) (key : Key) (value : Option ObjectRef) :
    Ordinary (g.set key value) := by
  unfold set
  split
  · exact ordinary_error.mpr rfl
  · split
    · rename_i h
      exact (ordinary_check key value).error h
    · exact ordinary_ok

theorem ordinary_add (g : Group) (key : Key) (value : Option ObjectRef) :
    Ordinary (g.add key value) := by
  unfold add
  split
  · exact ordinary_ok
  · split
    · rename_i h
      exact (ordinary_check key value).error h
    · exact ordinary_ok

end Group

namespace Store

theorem ordinary_read (s : Store) (id : GroupId) : Ordinary (s.read id) := by
  unfold read
  split
  · exact ordinary_ok
  · exact ordinary_error.mpr rfl

theorem ordinary_get (s : Store) (id : GroupId) (key : Key) : Ordinary (s.get id key) :=
  ordinary_bind (ordinary_read s id) fun g => g.ordinary_get key

theorem ordinary_set (s : Store) (id : GroupId) (key : Key) (value : Option ObjectRef) :
    Ordinary (s.set id key value) :=
  ordinary_bind (ordinary_read s id) fun g =>
    ordinary_bind (g.ordinary_set key value) fun _ => ordinary_ok

theorem ordinary_add (s : Store) (id : GroupId) (key : Key) (value : Option ObjectRef) :
    Ordinary (s.add id key value) :=
  ordinary_bind (ordinary_read s id) fun g =>
    ordinary_bind (g.ordinary_add key value) fun _ => ordinary_ok

theorem ordinary_bind (s : Store) (type : ObjectType) (value : Payload) :
    Ordinary (s.bind type value).1 := by
  dsimp only [bind]
  split
  · exact ordinary_ok
  · rename_i e h
    unfold setPayload at h
    split at h
    · cases h
    · cases h
      exact ordinary_error.mpr rfl

end Store

namespace View

theorem ordinary_firstWith (s : Store) (has : Group → Bool) (ids : List GroupId) :
    Ordinary (firstWith s has ids) := by
  induction ids with
  | nil => exact ordinary_ok
  | cons id ids ih =>
    unfold firstWith
    split
    · rename_i h
      exact (s.ordinary_read id).error h
    · split
      · exact ordinary_ok
      · exact ih

theorem ordinary_get (v : View) (s : Store) (key : Key) : Ordinary (v.get s key) := by
  refine ordinary_bind (ordinary_firstWith s _ _) fun owner => ?_
  cases owner with
  | none => exact ordinary_error.mpr rfl
  | some id => exact s.ordinary_get id key

theorem ordinary_set (v : View) (s : Store) (key : Key) (value : Option ObjectRef) :
    Ordinary (v.set s key value) := by
  refine ordinary_bind (ordinary_firstWith s _ _) fun owner => ?_
  cases owner with
  | none => exact ordinary_error.mpr rfl
  | some id => exact s.ordinary_set id key value

theorem ordinary_findKey? (v : View) (s : Store) (name : String) :
    Ordinary (v.findKey? s name) := by
  refine ordinary_bind (ordinary_firstWith s _ _) fun owner => ?_
  cases owner with
  | none => exact ordinary_ok
  | some id => exact ordinary_bind (s.ordinary_read id) fun _ => ordinary_ok

theorem ordinary_add (v : View) (s : Store) (key : Key) (value : Option ObjectRef) :
    Ordinary (v.add s key value) := by
  unfold add
  split
  · exact ordinary_error.mpr rfl
  · refine ordinary_bind (ordinary_firstWith s _ _) fun owner => ?_
    cases owner with
    | none => exact s.ordinary_add _ key value
    | some id => exact ordinary_ok

end View

theorem ordinary_memberKey (o : ObjectRef) (name : String) (withPrivate : Bool) :
    Ordinary (o.memberKey name withPrivate) := by
  unfold ObjectRef.memberKey
  split
  · exact ordinary_ok
  · exact ordinary_error.mpr rfl

namespace Thread

theorem ordinary_keyOf (t : Thread) (s : Store) (name : String) : Ordinary (t.keyOf s name) := by
  refine ordinary_bind (t.view.ordinary_findKey? s name) fun key => ?_
  cases key with
  | none => exact ordinary_error.mpr rfl
  | some key => exact ordinary_ok

theorem ordinary_follow (t : Thread) (s : Store) (path : List String) (current : Context)
    (fields : List String) : Ordinary (t.follow s path current fields) := by
  induction fields generalizing current with
  | nil => exact ordinary_ok
  | cons field fields ih =>
    cases current with
    | none => exact ordinary_error.mpr rfl
    | some o =>
      rw [follow]
      split
      · rename_i h
        exact (ordinary_memberKey o field (t.isInvoker o)).error h
      · split
        · rename_i h
          exact (s.ordinary_get o.group _).error h
        · exact ih _

theorem ordinary_lookup (t : Thread) (s : Store) (path : List String) (ctx : Context) :
    Ordinary (t.lookup s path ctx) := by
  cases ctx with
  | some o => exact t.ordinary_follow s path (some o) path
  | none =>
    cases path with
    | nil => exact ordinary_error.mpr rfl
    | cons first fields =>
      exact ordinary_bind (t.ordinary_keyOf s first) fun key =>
        ordinary_bind (t.view.ordinary_get s key) fun o => t.ordinary_follow s _ o fields

theorem ordinary_assign (t : Thread) (s : Store) (target : List String) (value : Context) :
    Ordinary (t.assign s target value) := by
  unfold assign
  split
  · exact ordinary_error.mpr rfl
  · split
    · exact ordinary_bind (t.ordinary_keyOf s _) fun key => t.view.ordinary_set s key value
    · refine ordinary_bind (t.ordinary_lookup s _ none) fun owner => ?_
      cases owner with
      | none => exact ordinary_error.mpr rfl
      | some owner =>
        exact ordinary_bind (ordinary_memberKey owner _ _) fun key =>
          s.ordinary_set owner.group key value

theorem ordinary_perform (t : Thread) (s : Store) (ctx : Context) (p : Primitive) :
    Ordinary (t.perform s ctx p).1 := by
  cases p with
  | declare name type =>
    rw [perform]
    split
    · exact ordinary_ok
    · rename_i h
      exact (t.view.ordinary_add s ⟨name, type⟩ none).error h
  | assign target =>
    rw [perform]
    split
    · exact ordinary_ok
    · rename_i h
      exact (t.ordinary_assign s target ctx).error h
  | lookup path =>
    rw [perform]
    split
    · exact ordinary_ok
    · rename_i h
      exact (t.ordinary_lookup s path ctx).error h
  | native type value =>
    rw [perform]
    split
    · exact ordinary_ok
    · rename_i h
      exact (s.ordinary_bind type value).error (congrArg Prod.fst h)
  | self => exact ordinary_ok
  | clear => exact ordinary_ok

theorem ordinary_bindArguments (g : Group) (args : List (Key × Option ObjectRef)) :
    Ordinary (bindArguments g args) := by
  induction args generalizing g with
  | nil => exact ordinary_ok
  | cons arg args ih =>
    obtain ⟨key, value⟩ := arg
    cases value with
    | none => exact ih g
    | some v =>
      rw [bindArguments]
      split
      · rename_i h
        exact (g.ordinary_set key (some v)).error h
      · exact ih _

theorem ordinary_enter (s : Store) (script : Script) (invoker : Context) (args : List Context)
    (scope : Scope) : Ordinary (enter s script invoker args scope).1 := by
  unfold enter
  split
  · exact ordinary_error.mpr rfl
  · split
    · rename_i h
      exact (ordinary_bindArguments _ _).error h
    · exact ordinary_ok

end Thread

theorem Script.ordinary_result (script : Script) (ctx : Context) :
    Ordinary (script.result ctx) := by
  unfold result
  split
  · exact ordinary_ok
  · split
    · exact ordinary_ok
    · split
      · exact ordinary_ok
      · exact ordinary_error.mpr rfl

/-! ### Unknown scripts -/

theorem Catalog.error_of_resolveScript {c : Catalog} {name : Name} {e : Error}
    (h : c.resolveScript name = .error e) :
    c.resolveScript? name = none ∧ e = .unknownScript name.text := by
  unfold resolveScript at h
  split at h
  · cases h
  · rename_i hnone
    cases h
    exact ⟨hnone, rfl⟩

theorem Env.error_of_scriptOf {env : Env} {callee : Callee} {e : Error}
    (h : env.scriptOf callee = .error e) :
    ∃ name, env.catalog.resolveScript? name = none ∧ e = .unknownScript name.text := by
  cases callee with
  | direct script => cases h
  | named name => exact ⟨name, Catalog.error_of_resolveScript h⟩

/-! ### Runs -/

namespace Moment

variable {env : Env} {m m' : Moment} {e : Error}

/-- Where an error comes from.  Whose token is cancelled is known only when the run looks. -/
inductive Raises (env : Env) (m : Moment) : Error → Prop where
  | tooDeep {held : Held} {c : Call} (h : m.task = .call held c)
      (deep : env.limit < c.scope.depth) :
      Raises env m (.invokeDepthExceeded c.scope.depth env.limit)
  | cancelled {held : Held} {t : Thread} {n : Nat} {ctx : Context} {cs : List Command}
      (h : m.task = .commands held t n ctx cs) {cancelled : List TokenId}
      (hc : t.scope.isCancelled cancelled = true) :
      Raises env m (.cancelled t.script.name.text n)
  | denied {held : Held} {t : Thread} {ctx : Context} {c : Command}
      (h : m.task = .command held t ctx c)
      (gate : t.scope.capabilities.isSuperset c.requires = false) :
      Raises env m
        (.capabilityDenied c.action.label (t.scope.capabilities.missing c.requires))
  | unknown {name : Name} (h : env.catalog.resolveScript? name = none) :
      Raises env m (.unknownScript name.text)
  | ordinary {e : Error} (h : e.isOrdinary = true) : Raises env m e

/-- **A step hands an error on or raises it.** -/
theorem Moves.raises (h : Moves env m m') (hm' : m'.task = .done (.error e)) :
    m.task = .done (.error e) ∨ m.Raises env e := by
  obtain ⟨cancelled, hnext⟩ := h
  cases hnext with
  | abandon => exact .inl hm'
  | tooDeep h =>
    cases hm'
    exact .inr (.tooDeep rfl h)
  | cancelled h =>
    cases hm'
    exact .inr (.cancelled rfl h)
  | denied h =>
    cases hm'
    exact .inr (.denied rfl h)
  | noConstructor h hr =>
    cases hm'
    obtain ⟨hnone, rfl⟩ := Catalog.error_of_resolveScript hr
    exact .inr (.unknown hnone)
  | noScript ha h =>
    cases hm'
    obtain ⟨name, hnone, rfl⟩ := Env.error_of_scriptOf h
    exact .inr (.unknown hnone)
  | notEntered h he =>
    cases hm'
    exact .inr (.ordinary (Thread.ordinary_enter _ _ _ _ _ _ (congrArg Prod.fst he)))
  | failed ha h =>
    cases hm'
    exact .inr (.ordinary (Thread.ordinary_perform _ _ _ _ _ (congrArg Prod.fst h)))
  | @resume ctx f fs s =>
    -- of all that waits only a thread can fail, for its result
    cases f with
    | commands | inputs | object => cases hm'
    | thread held t =>
      dsimp only [Frame.resume] at hm'
      split at hm'
      · rename_i h
        cases hm'
        exact .inr (.ordinary (t.script.ordinary_result ctx _ h))
      · cases hm'
  | _ => cases hm'

/-- **Every error of a run was raised on the way.** -/
theorem Passes.raises (h : Passes env m m') (hstart : ∀ r, m.task ≠ .done r)
    (hm' : m'.task = .done (.error e)) : ∃ m₁, Passes env m m₁ ∧ m₁.Raises env e := by
  induction h with
  | refl => exact absurd hm' (hstart _)
  | @tail m₁ m₂ hpass hmove ih =>
    rcases hmove.raises hm' with hbefore | hraised
    · exact ih hbefore
    · exact ⟨m₁, hpass, hraised⟩

end Moment

end Steward
