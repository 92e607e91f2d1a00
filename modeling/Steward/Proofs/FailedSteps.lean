/-
Failed steps: a step that reads or writes slots and fails leaves every group as it was.

Such a step looks names up, reads keys and asks the memory.  Whatever of this goes wrong, nothing
was changed but the number that comes next (`Host.FailsClean`).  What follows a step is tidied up,
and there is nothing to tidy up in a session that was left by a step.

* **`Reachable.group?_tidy`** — tidying up once more takes no group away;
* **`failsClean_memory`**, **`failsClean_write`** — the steps on slots fail cleanly, whatever they
  go through;
* **`Reachable.group?_of_failed`** — so after a step that fails cleanly every group is as before.
-/
import Steward.Proofs.Exclusion

namespace Steward

namespace Session

variable {s : Session}

/-- When a session has been tidied up, nothing is left to go. -/
theorem Reachable.over (h : s.Reachable) : Cascade.Over s.owned s.held ⟨s.store, []⟩ := by
  rcases h.eq_start_or_tidy with ⟨config, rfl⟩ | ⟨r, x, hr, heffects, rfl⟩
  · intro c' hnext
    generalize hc : Cascade.mk (start config).store [] = c at hnext
    cases hnext with
    | group live unowned plain =>
      cases hc
      simp [start, Store.isLive] at live
    | object there free unused dropped =>
      cases hc
      simp [start] at there
    | drop =>
      injection hc with _ hfalling
      simp at hfalling
  · exact Cascade.over_tidy (hr.steady_effects heffects).sound.store

theorem Reachable.group?_tidy (h : s.Reachable) (id : GroupId) :
    s.tidy.store.group? id = s.store.group? id := by
  have hstore := h.sound.store
  have htidy : Cascade.Ends s.owned s.held ⟨s.store, []⟩ ⟨s.tidy.store, []⟩ :=
    ⟨Cascade.steps_tidy hstore _ _ [], Cascade.over_tidy hstore⟩
  have hhere : Cascade.Ends s.owned s.held ⟨s.store, []⟩ ⟨s.store, []⟩ := ⟨.refl, h.over⟩
  exact Cascade.group?_eq htidy hhere id

end Session

namespace Host

open Session

variable {α β : Type} {s : Session}

/-- Whether an action, if it fails, has changed nothing but the number that comes next. -/
def FailsClean (s : Session) (m : Host α) : Prop :=
  Ends s m fun r s' => ∀ fault, r = .error fault → ∃ n, s' = s.numbered n

/-- Whether an action works, whatever it does. -/
def Works (s : Session) (m : Host α) : Prop :=
  Ends s m fun r _ => ∀ fault, r ≠ .error fault

/-- First the action reads.  The session is given with its number, as in `takes_bind_reads`. -/
theorem failsClean_bind_reads {m : Host α} {f : α → Host β} {R : α → Prop} {k : Nat}
    (hm : Reads (s.numbered k) m R)
    (hf : ∀ n a, R a → FailsClean (s.numbered n) (f a)) : FailsClean (s.numbered k) (m >>= f) := by
  obtain ⟨⟨n, -, hs⟩, hR⟩ := hm
  rw [FailsClean, Ends, run_bind]
  generalize m.run.run (s.numbered k) = r at hs hR
  obtain ⟨r, s'⟩ := r
  obtain rfl : s' = s.numbered n := hs
  cases r with
  | error e => exact fun _ _ => ⟨n, rfl⟩
  | ok a => exact hf n a (hR a rfl)

theorem failsClean_bind_get {f : Session → Host β} (h : FailsClean s (f s)) :
    FailsClean s (getThe Session >>= f) :=
  h

/-- The memory is asked, and after it has answered nothing fails any more. -/
theorem failsClean_bind_ofResult {r : Except Error α} {f : α → Host β}
    (h : ∀ a, r = .ok a → Works s (f a)) : FailsClean s (ofResult r >>= f) := by
  cases r with
  | error e => exact fun _ _ => ⟨s.fresh, rfl⟩
  | ok a => exact fun fault hfault => absurd hfault (h a rfl fault)

theorem works_pure (a : α) : Works s (pure a) :=
  fun _ h => by cases h

theorem works_bind_setStore {store : Store} {f : Unit → Host β}
    (h : Works { s with store } (f ())) : Works s (setStore store >>= f) :=
  h

theorem works_answerContext (name : Option String) (ctx : Context) :
    Works s (answerContext name ctx) := by
  cases name with
  | none =>
    cases ctx with
    | none => exact nofun
    | some o => exact nofun
  | some name =>
    cases ctx with
    | none => exact nofun
    | some o => exact nofun

end Host

/-- What a step on slots goes through. -/
def MemoryStep.through? : MemoryStep → Option AccessRef
  | .get through .. => some through
  | .set _ through _ => some through
  | .add _ through _ => some through
  | .has through _ => some through
  | .keys through => some through
  | .find through _ => some through
  | _ => none

namespace Host

open Session

variable {s : Session}

/-- The steps on slots fail cleanly, whatever they go through. -/
theorem failsClean_memory {step : MemoryStep} {through : AccessRef}
    (h : step.through? = some through) : FailsClean s step.take := by
  change FailsClean (s.numbered s.fresh) step.take
  cases step with
  | get through key handle =>
    refine failsClean_bind_reads reads_findAccess fun _ a _ => ?_
    refine failsClean_bind_reads reads_readKey fun _ key _ => failsClean_bind_get ?_
    exact failsClean_bind_ofResult fun ctx _ => works_answerContext _ ctx
  | set value through key =>
    refine failsClean_bind_reads reads_findContext fun _ value _ => ?_
    refine failsClean_bind_reads reads_findAccess fun _ a _ => ?_
    refine failsClean_bind_reads reads_readKey fun _ key _ => failsClean_bind_get ?_
    exact failsClean_bind_ofResult fun _ _ => works_bind_setStore (works_pure _)
  | add value through key =>
    refine failsClean_bind_reads reads_findContext fun _ value _ => ?_
    refine failsClean_bind_reads reads_findAccess fun _ a _ => ?_
    refine failsClean_bind_reads reads_readKey fun _ key _ => failsClean_bind_get ?_
    exact failsClean_bind_ofResult fun _ _ => works_bind_setStore (works_pure _)
  | has through key =>
    refine failsClean_bind_reads reads_findAccess fun _ a _ => ?_
    refine failsClean_bind_reads reads_readKey fun _ key _ => failsClean_bind_get ?_
    exact failsClean_bind_ofResult fun _ _ => works_pure _
  | keys through =>
    refine failsClean_bind_reads reads_findAccess fun _ a _ => failsClean_bind_get ?_
    exact failsClean_bind_ofResult fun _ _ => works_pure _
  | find through name =>
    refine failsClean_bind_reads reads_findAccess fun _ a _ => failsClean_bind_get ?_
    exact failsClean_bind_ofResult fun _ _ => works_pure _
  | alloc | remember | live | isLive | dump | rawSet | rawAdd | rawFind | view | relink | drop
  | close | debug => cases h

theorem failsClean_write {value : Option String} {object name : String} {withPrivate : Bool} :
    FailsClean s (ObjectStep.write value object name withPrivate).take := by
  change FailsClean (s.numbered s.fresh) _
  refine failsClean_bind_reads reads_findContext fun _ value _ => ?_
  refine failsClean_bind_reads reads_find fun _ o _ => ?_
  refine failsClean_bind_reads reads_needOpen fun _ _ _ => ?_
  refine failsClean_bind_reads reads_ofResult fun _ key _ => failsClean_bind_get ?_
  exact failsClean_bind_ofResult fun _ _ => works_bind_setStore (works_pure _)

end Host

/-- **After a step that fails cleanly every group is as before.** -/
theorem Session.Reachable.group?_of_failed {s : Session} (h : s.Reachable) {step : Step}
    (hclean : Host.FailsClean s step.take) {fault : Fault} (hfault : (s.step step).1 = .error fault)
    (id : GroupId) : (s.step step).2.store.group? id = s.store.group? id := by
  obtain ⟨n, hs'⟩ := hclean fault hfault
  have hstep : (s.step step).2 = (s.numbered n).tidy := congrArg Session.tidy hs'
  rw [hstep]
  exact h.group?_tidy id

end Steward
