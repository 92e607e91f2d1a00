/-
Effects: everything a step can do to a session, said once.

A step of a host is a chain of effects.  There are few kinds of them: notes that matter to
nobody else, definitions and scripts under numbers of their own, operations on the store
(`Operation`) whose object may be kept under a name, threads, locks that are taken and calls
that wait for them, libraries on their way from a draft to the catalog, and names that are
dropped.  After every step `tidy`
lets go of what is left without an owner.

* **`effects_take`** — whatever step is taken, and whether it works or not, the session it
  leaves behind comes about by effects;
* **`Becomes.effects`** — and so does what a run leaves behind in the course of which somebody
  is cancelled;
* **`Reachable.induct`** — so what holds of a session that has just begun, and is kept by
  every effect, holds of every session there can be.

Design notes: an effect carries what its step has checked, such as that the session is open
or that an object stands under a name, and that the numbers of groups it brings in were in the
session before (`given`); and no more.  A step that fails has effects too:
numbers are drawn, objects are made that nothing refers to.  A step runs what it runs without
interruption; whatever else a run can come to is a case of its own in `Becomes`.
-/
import Mathlib.Logic.Relation
import Steward.Proofs.HostActions
import Steward.Proofs.Moments
import Steward.Proofs.SoundRun

namespace Steward

namespace Session

/-- What a host can have run at once: a call, an object that is made, or commands in a thread
that it has entered. -/
inductive Starts (s : Session) : Task → Prop where
  | call {c : Call} (isOpen : s.isOpen = true) (known : s.KnowsCall c)
      (given : ∀ id, c.Mentions id → s.Mentions id) : Starts s (.call s.held c)
  | construct {type : ObjectType} {scope : Scope} (isOpen : s.isOpen = true)
      (known : type ∈ s.types.values)
      (given : ∀ id, scope.context = some id → s.Mentions id) :
      Starts s (.construct s.held none type scope)
  | command {t : Thread} {ctx : Context} {c : Command} (thread : t ∈ s.threads.values)
      (known : s.Knows ctx) (given : ∀ id, c.Mentions id → s.Mentions id) :
      Starts s (.command s.held t ctx c)
  | commands {t : Thread} {ctx : Context} {cs : List Command} (thread : t ∈ s.threads.values)
      (known : s.Knows ctx) (given : ∀ id, commandsMention id cs → s.Mentions id) :
      Starts s (.commands s.held t 0 ctx cs)

/-- An operation on the store of a session, with the object that comes of it. -/
inductive Operation (s : Session) : Outcome Context → Prop where
  | refer {o : ObjectRef} (known : o ∈ s.objects.values) : Operation s (.ok (some o), s.store)
  | get {id : GroupId} {key : Key} {value : Context} (h : s.store.get id key = .ok value) :
      Operation s (.ok value, s.store)
  | set {id : GroupId} {key : Key} {value old : Context} {store : Store} (known : s.Knows value)
      (h : s.store.set id key value = .ok (old, store)) : Operation s (.ok old, store)
  | add {id : GroupId} {key : Key} {value : Context} {added : Bool} {store : Store}
      (known : s.Knows value) (h : s.store.add id key value = .ok (added, store)) :
      Operation s (.ok none, store)
  | instantiate {type : ObjectType} (isOpen : s.isOpen = true) (known : type ∈ s.types.values) :
      Operation s (.ok (some (s.store.instantiate type).1), (s.store.instantiate type).2)
  | bind {type : ObjectType} {value : Payload} (isOpen : s.isOpen = true)
      (known : type ∈ s.types.values) :
      Operation s ((s.store.bind type value).1.map some, (s.store.bind type value).2)
  | setPayload {o : ObjectRef} {value : Payload} {store : Store} (known : o ∈ s.objects.values)
      (h : s.store.setPayload o value = .ok store) : Operation s (.ok none, store)
  /-- A run, from its start to its end, whoever is cancelled in the course of it. -/
  | run {task : Task} {out : Outcome Context} (h : s.Starts task)
      (hrun : Moment.ComesTo s.env ⟨task, [], s.store⟩ out) : Operation s out

/-- A run in the course of which nobody is cancelled. -/
theorem Operation.outcome {s : Session} {task : Task} (h : s.Starts task) :
    s.Operation (task.outcome s.env s.store) :=
  .run h (Moment.comesTo_outcome s.env ⟨task, [], s.store⟩)

theorem Operation.call {s : Session} {c : Call} (isOpen : s.isOpen = true)
    (known : s.KnowsCall c) (given : ∀ id, c.Mentions id → s.Mentions id) :
    s.Operation (s.env.run s.held c s.store) :=
  @Operation.outcome s (.call s.held c) (.call isOpen known given)

theorem Operation.command {s : Session} {t : Thread} {ctx : Context} {c : Command}
    (thread : t ∈ s.threads.values) (known : s.Knows ctx)
    (given : ∀ id, c.Mentions id → s.Mentions id) :
    s.Operation (s.env.execute s.held t ctx c s.store) :=
  @Operation.outcome s (.command s.held t ctx c) (.command thread known given)

theorem Operation.commands {s : Session} {t : Thread} {ctx : Context} {cs : List Command}
    (thread : t ∈ s.threads.values) (known : s.Knows ctx)
    (given : ∀ id, commandsMention id cs → s.Mentions id) :
    s.Operation (s.env.executeAll s.held t ctx cs s.store) :=
  @Operation.outcome s (.commands s.held t 0 ctx cs) (.commands thread known given)

/-- An object that is made comes of a run as well. -/
theorem Operation.construct {s : Session} {type : ObjectType} {scope : Scope}
    (isOpen : s.isOpen = true) (known : type ∈ s.types.values)
    (given : ∀ id, scope.context = some id → s.Mentions id) :
    s.Operation ((s.env.construct s.held type scope s.store).1.map some,
      (s.env.construct s.held type scope s.store).2) := by
  rw [← Task.outcome_construct]
  exact .outcome (.construct isOpen known given)

/-- The session after an operation, with its object under a name if one is given; nothing
takes the name away. -/
def after (s : Session) (r : Outcome Context) (name : Option String) : Session :=
  { s with
    store := r.2
    objects :=
      match r.1, name with
      | .ok (some o), some name => s.objects.insert name o
      | .ok none, some name => s.objects.erase name
      | _, _ => s.objects }

/-- The session after a thread was entered, with the thread under a name if there is one. -/
def entered (s : Session) (r : Outcome Thread) (name : String) : Session :=
  { s with
    store := r.2
    threads :=
      match r.1 with
      | .ok t => s.threads.insert name t
      | .error _ => s.threads }

/-- The locks once the holder of one, or someone who waits, has given up, if there is one. -/
def leaving (ls : Locks) : Option (GroupId × Ticket) → Locks
  | none => ls
  | some (object, ticket) => ls.leave object ticket

/-- The lock that a name of the host stands for, with the ticket under which it is held. -/
def guard? (s : Session) (name : String) : Option (GroupId × Ticket) :=
  (s.guards.find? name).map fun g => (g.object, g.ticket)

/-- The lock that the call under a name waits for, with its ticket. -/
def place? (s : Session) (name : String) : Option (GroupId × Ticket) :=
  (s.pendings.find? name).map fun p => (p.object, p.ticket)

/-- The session without what stood under a name; what is wanted of a lock is given up. -/
def without (s : Session) (name : String) : Droppable → Session
  | .object => { s with objects := s.objects.erase name }
  | .group => { s with groups := s.groups.erase name }
  | .view => { s with views := s.views.erase name }
  | .builder => { s with drafts := s.drafts.erase name }
  | .library => { s with libraries := s.libraries.erase name }
  | .thread => { s with threads := s.threads.erase name }
  | .lock => { s with guards := s.guards.erase name, locks := leaving s.locks (s.guard? name) }
  | .pending =>
    { s with pendings := s.pendings.erase name, locks := leaving s.locks (s.place? name) }

/-- The session once it is closed; the calls that wait give their places up. -/
def shut (s : Session) : Session :=
  { s with
    isOpen := false
    catalog := {}
    pendings := {}
    locks := s.pendings.values.foldl (fun ls p => ls.leave p.object p.ticket) s.locks
    threads := {}
    views := {}
    store := s.store.clear }

/-- One thing that can happen to a session in a step. -/
inductive Effect : Session → Session → Prop where
  /-- What is noted down without touching memory or definitions. -/
  | note {s : Session} {registries : Table Registry} {views : Table View} {tokens : Table TokenId}
      {cancelled : List TokenId} {fresh : Nat} (up : s.fresh ≤ fresh) :
      Effect s { s with registries, views, tokens, cancelled, fresh }
  /-- A number is noted down. -/
  | remember {s : Session} {id : GroupId} {handle : String} (given : s.Mentions id) :
      Effect s { s with ids := s.ids.insert handle id }
  /-- The host takes a lock; what it held under the name is given up. -/
  | lock {s : Session} {o : ObjectRef} {locks : Locks} {handle : String}
      (known : o ∈ s.objects.values) (free : s.locks.acquire? o.group s.fresh = some locks) :
      Effect s { s with
        locks := leaving locks (s.guard? handle)
        guards := s.guards.insert handle ⟨o.group, s.fresh⟩
        fresh := s.fresh + 1 }
  /-- A lock is taken and given up again. -/
  | pass {s : Session} {object : GroupId} {locks : Locks}
      (free : s.locks.acquire? object s.fresh = some locks) :
      Effect s { s with locks := locks.leave object s.fresh, fresh := s.fresh + 1 }
  | contract {s : Session} {name : Name} {props : List Key} {parents : List Contract}
      {c : Contract} {handle : String} (known : ∀ p ∈ parents, p ∈ s.contracts.values)
      (h : Contract.define s.fresh name props parents = .ok c) :
      Effect s { s with contracts := s.contracts.insert handle c, fresh := s.fresh + 1 }
  | type {s : Session} {spec : TypeSpec} {t : ObjectType} {handle : String}
      (parent : ∀ p, spec.parent = some p → p ∈ s.types.values)
      (contracts : ∀ c ∈ spec.contracts, c ∈ s.contracts.values)
      (h : spec.build s.fresh = .ok t) :
      Effect s { s with types := s.types.insert handle t, fresh := s.fresh + 1 }
  | allocate {s : Session} {role : Role} {keys : List Key} {handle : String}
      (isOpen : s.isOpen = true) :
      Effect s { s with
        store := (s.store.allocate (.ofKeys role keys)).2
        groups := s.groups.insert handle (s.store.allocate (.ofKeys role keys)).1 }
  | operate {s : Session} {r : Outcome Context} {handle : Option String} (h : s.Operation r) :
      Effect s (s.after r handle)
  | enter {s : Session} {c : Call} {handle : String} (isOpen : s.isOpen = true)
      (known : s.KnowsCall c) (given : ∀ id, c.Mentions id → s.Mentions id) :
      Effect s (s.entered (Thread.enter s.store c.script c.invoker c.args c.scope) handle)
  /-- A call has to wait for its turn; the one that waited under its name is given up. -/
  | wait {s : Session} {c : Call} {object : GroupId} {name : String} (isOpen : s.isOpen = true)
      (known : s.KnowsCall c) (given : ∀ id, c.Mentions id → s.Mentions id)
      (taken : s.locks.acquire? object s.fresh = none) :
      Effect s { s with
        locks := leaving (s.locks.enqueue object s.fresh) (s.place? name)
        pendings := s.pendings.insert name ⟨c, object, s.fresh⟩
        fresh := s.fresh + 1 }
  /-- A call that waited has its turn; it is no longer under its name when it runs. -/
  | resume {s s' : Session} {p : Pending} {name : String} {out : Outcome Context}
      {handle : Option String} (h : s.pendings.find? name = some p)
      (hs : s' = s.without name .pending) (turn : s.locks.holds p.object p.ticket = true)
      (hrun : Moment.ComesTo s'.env ⟨.call s'.held p.call, [], s'.store⟩ out) :
      Effect s (s'.after out handle)
  | draft {s : Session} {name handle : String} (isOpen : s.isOpen = true) :
      Effect s { s with
        store := (s.store.allocate ⟨.statics, []⟩).2
        drafts := s.drafts.insert handle
          { name, statics := (s.store.allocate ⟨.statics, []⟩).1 } }
  | depend {s : Session} {d : Draft} {l : Library} {builder : String}
      (h : s.drafts.find? builder = some d) (known : l ∈ s.libraries.values) :
      Effect s { s with drafts := s.drafts.insert builder (d.depend l) }
  | define {s : Session} {d d' : Draft} {x : Definition} {builder : String}
      (h : s.drafts.find? builder = some d) (known : x ∈ s.definitions)
      (hd : d.define x = .ok d') :
      Effect s { s with drafts := s.drafts.insert builder d' }
  /-- A script of nobody. -/
  | script {s : Session} {x : Script} {handle : String} (h : x.stamp = s.fresh)
      (given : ∀ id, x.Mentions id → s.Mentions id) :
      Effect s { s with scripts := s.scripts.insert handle x, fresh := s.fresh + 1 }
  /-- A copy of a script for a library to be. -/
  | addScript {s : Session} {d d' : Draft} {x copy : Script} {builder handle : String}
      (h : s.drafts.find? builder = some d) (hd : d.addScript x s.fresh = .ok (copy, d'))
      (given : ∀ id, x.Mentions id → s.Mentions id) :
      Effect s { s with
        drafts := s.drafts.insert builder d'
        scripts := s.scripts.insert handle copy
        fresh := s.fresh + 1 }
  | build {s : Session} {d : Draft} {l : Library} {builder handle : String}
      (h : s.drafts.find? builder = some d) (hl : d.build = .ok l) :
      Effect s { s with
        drafts := s.drafts.erase builder
        libraries := s.libraries.insert handle l }
  | load {s : Session} {l : Library} {catalog : Catalog} (isOpen : s.isOpen = true)
      (known : l ∈ s.libraries.values) (h : s.catalog.load l = .ok catalog) :
      Effect s { s with catalog }
  | resolve {s : Session} {name : Name} {x : Script} {handle : String}
      (h : s.catalog.resolveScript name = .ok x) :
      Effect s { s with scripts := s.scripts.insert handle x }
  | drop {s : Session} {what : Droppable} {name : String} : Effect s (s.without name what)
  | close {s : Session} : Effect s s.shut
  | tidy {s : Session} : Effect s s.tidy

/-- What can happen to a session in any number of steps. -/
def Effects : Session → Session → Prop :=
  Relation.ReflTransGen Effect

theorem Effects.refl (s : Session) : s.Effects s :=
  Relation.ReflTransGen.refl

theorem Effects.tail {s s' s'' : Session} (h : s.Effects s') (h' : s'.Effect s'') :
    s.Effects s'' :=
  Relation.ReflTransGen.tail h h'

/-- What every effect keeps is kept by any number of them. -/
theorem Effects.invariant {P : Session → Prop} {s s' : Session}
    (effect : ∀ {s s'}, Effect s s' → P s → P s') (h : s.Effects s') (hs : P s) :
    P s' := by
  induction h with
  | refl => exact hs
  | tail _ heff ih => exact effect heff ih

theorem Effects.numbered {s s' : Session} (h : s.Effects s') {n : Nat} (hn : s'.fresh ≤ n) :
    s.Effects (s'.numbered n) :=
  h.tail (.note hn)

theorem after_none (s : Session) (r : Outcome Context) :
    s.after r none = { s with store := r.2 } := by
  obtain ⟨r, store⟩ := r
  rcases r with e | _ | o
  · rfl
  · rfl
  · rfl

theorem Effects.operate {s s' : Session} (h : s.Effects s') {r : Outcome Context}
    (hop : s'.Operation r) (name : Option String) : s.Effects (s'.after r name) :=
  h.tail (.operate hop)

/-- An operation whose object is not kept. -/
theorem Effects.operated {s s' : Session} (h : s.Effects s') {r : Outcome Context}
    (hop : s'.Operation r) : s.Effects { s' with store := r.2 } := by
  rw [← after_none]
  exact h.operate hop none

end Session

/-! ### Slots by way of an access -/

namespace Access

theorem get_cases {a : Access} {s : Store} {key : Key} {value : Context}
    (h : a.get s key = .ok value) : ∃ id, s.get id key = .ok value := by
  cases a with
  | direct id => exact ⟨id, h⟩
  | linked v => exact View.get_cases h

theorem set_cases {a : Access} {s s' : Store} {key : Key} {value old : Context}
    (h : a.set s key value = .ok (old, s')) : ∃ id, s.set id key value = .ok (old, s') := by
  cases a with
  | direct id => exact ⟨id, h⟩
  | linked v => exact View.set_cases h

theorem add_cases {a : Access} {s s' : Store} {key : Key} {value : Context} {added : Bool}
    (h : a.add s key value = .ok (added, s')) :
    s' = s ∨ ∃ id, s.add id key value = .ok (added, s') := by
  cases a with
  | direct id => exact .inr ⟨id, h⟩
  | linked v => exact View.add_cases h

end Access

namespace Host

open Session

/-! ### Rules for steps -/

/-- An action, taken from `s`, by which `s₀` comes to the session it leaves behind. -/
def Takes {α : Type} (s₀ s : Session) (m : Host α) : Prop :=
  Leaves s m s₀.Effects

variable {α β : Type} {s₀ s : Session}

theorem takes_of_reads {m : Host α} {R : α → Prop} (h : s₀.Effects s) (hm : Reads s m R) :
    Takes s₀ s m :=
  leaves_of_reads hm fun _ hn => h.numbered hn

/-- First the action reads.  The session is given with its number, so that reading many
things in a row does not pile numbers up. -/
theorem takes_bind_reads {m : Host α} {f : α → Host β} {R : α → Prop} {k : Nat}
    (h : s₀.Effects (s.numbered k)) (hm : Reads (s.numbered k) m R)
    (hf : ∀ n a, s₀.Effects (s.numbered n) → R a → Takes s₀ (s.numbered n) (f a)) :
    Takes s₀ (s.numbered k) (m >>= f) :=
  leaves_bind_reads hm (fun _ hn => h.numbered hn) fun n a hn ha => hf n a (h.numbered hn) ha

/-- The object that came of something is shown, and kept if a name is given. -/
theorem takes_answerContext {ctx : Context} {store : Store} {name : Option String}
    (h : ∀ name, s₀.Effects (s.after (.ok ctx, store) name)) :
    Takes s₀ { s with store } (answerContext name ctx) := by
  have hs : s₀.Effects { s with store } := by
    have := h none
    rwa [after_none] at this
  refine leaves_bind_reads reads_inspectContext (fun n hn => hs.numbered hn) fun n _ hn _ => ?_
  cases name with
  | none => exact leaves_pure (hs.numbered hn)
  | some name =>
    refine leaves_bind_modify (leaves_pure ?_)
    cases ctx with
    | none => exact (h (some name)).numbered hn
    | some o => exact (h (some name)).numbered hn

theorem takes_answerObject {o : ObjectRef} {store : Store} {name : String}
    (h : s₀.Effects (s.after (.ok (some o), store) (some name))) :
    Takes s₀ { s with store } (answerObject name o) := by
  refine leaves_bind_modify (leaves_bind_reads reads_inspect (fun n hn => h.numbered hn) ?_)
  intro n _ hn _
  exact leaves_pure (h.numbered hn)

/-- The object that came of something that may have failed is shown. -/
theorem takes_ofResult {r : Outcome Context} {name : Option String}
    (h : ∀ name, s₀.Effects (s.after r name)) :
    Takes s₀ { s with store := r.2 } (ofResult r.1 >>= answerContext name) := by
  refine leaves_bind_ofResult ?_ fun ctx hctx => takes_answerContext fun name => ?_
  · rw [← after_none]
    exact h none
  · rw [← hctx]
    exact h name

/-! ### Steps on definitions -/

theorem takes_definition (step : DefinitionStep) {k : Nat} (h : s₀.Effects (s.numbered k)) :
    Takes s₀ (s.numbered k) step.take := by
  cases step with
  | contract name props parents handle =>
    refine takes_bind_reads h reads_readName fun _ name h _ => ?_
    refine takes_bind_reads h (reads_mapM fun _ _ _ => reads_readKey) fun _ props h _ => ?_
    refine takes_bind_reads h (reads_mapM (R := (· ∈ s.contracts.values)) fun _ _ _ =>
      reads_find.mono fun _ hc => Table.mem_values_of_find? hc) fun _ parents h hparents => ?_
    refine leaves_bind_fresh (leaves_bind_ofResult (h.numbered (Nat.le_succ _)) fun c hc => ?_)
    exact leaves_bind_modify (leaves_pure (h.tail (.contract hparents hc)))
  | type name publicKeys privateKeys contracts parent ctor binding handle =>
    refine takes_bind_reads h reads_readName fun _ name h _ => ?_
    refine takes_bind_reads h (reads_mapM fun _ _ _ => reads_readKey) fun _ publicKeys h _ => ?_
    refine takes_bind_reads h (reads_mapM fun _ _ _ => reads_readKey) fun _ privateKeys h _ => ?_
    refine takes_bind_reads h (reads_mapM (R := (· ∈ s.contracts.values)) fun _ _ _ =>
      reads_find.mono fun _ hc => Table.mem_values_of_find? hc) fun _ contracts h hcontracts => ?_
    refine takes_bind_reads h (reads_mapM_option (R := (· ∈ s.types.values)) fun _ =>
      reads_find.mono fun _ ht => Table.mem_values_of_find? ht) fun _ parent h hparent => ?_
    refine takes_bind_reads h (reads_mapM_option fun _ => reads_readName) fun _ ctor h _ => ?_
    refine leaves_bind_fresh (leaves_bind_ofResult (h.numbered (Nat.le_succ _)) fun t ht => ?_)
    refine leaves_bind_modify (leaves_pure (h.tail ?_))
    exact Effect.type hparent hcontracts ht
  | describe definition =>
    exact takes_bind_reads h reads_findDefinition fun _ _ h _ => leaves_pure h
  | compare a b =>
    refine takes_bind_reads h reads_findDefinition fun _ _ h _ => ?_
    exact takes_bind_reads h reads_findDefinition fun _ _ h _ => leaves_pure h
  | isNamed name definition =>
    refine takes_bind_reads h reads_readName fun _ _ h _ => ?_
    exact takes_bind_reads h reads_findDefinition fun _ _ h _ => leaves_pure h
  | property t name withPrivate =>
    exact takes_bind_reads h reads_find fun _ _ h _ => leaves_pure h
  | accepts kind t =>
    exact takes_bind_reads h reads_find fun _ _ h _ => leaves_pure h
  | register definition registry =>
    refine takes_bind_reads h reads_findDefinition fun _ _ h _ => ?_
    refine leaves_bind_get (leaves_bind_ofResult h fun r _ => ?_)
    exact leaves_bind_modify (leaves_pure (h.tail (.note (Nat.le_refl _))))
  | registry registry query =>
    refine takes_bind_reads h (reads_mapM_option fun _ => reads_readName) fun _ _ h _ => ?_
    exact leaves_bind_get (leaves_pure h)

/-! ### Steps on memory -/

/-- Without a name, what stood under it is gone, and its place in the line of a lock with it. -/
theorem leaves_dropNamed (s : Session) (what : Droppable) (name : String) :
    Leaves s (dropNamed what name) (· = s.without name what) := by
  refine leaves_bind_get ?_
  cases what with
  | object | group | view | builder | library | thread => exact rfl
  | lock =>
    rw [without, guard?]
    refine leaves_bind_modify (g := fun _ => { s with guards := s.guards.erase name }) ?_
    cases s.guards.find? name with
    | none => exact leaves_pure rfl
    | some g => exact leaves_bind_modify (leaves_pure rfl)
  | pending =>
    rw [without, place?]
    refine leaves_bind_modify (g := fun _ => { s with pendings := s.pendings.erase name }) ?_
    cases s.pendings.find? name with
    | none => exact leaves_pure rfl
    | some p => exact leaves_bind_modify (leaves_pure rfl)

theorem takes_dropNamed (what : Droppable) (name : String) (h : s₀.Effects s) :
    Takes s₀ s (dropNamed what name) := by
  have hdrop : s₀.Effects (s.without name what) := h.tail .drop
  rwa [← leaves_dropNamed s what name] at hdrop

/-- Calls that are given up leave the queues of the locks. -/
theorem leaves_bind_giveUp (ps : List Pending) {f : Unit → Host β} {Q : Session → Prop}
    (h : Leaves { s with locks := ps.foldl (fun ls p => ls.leave p.object p.ticket) s.locks }
      (f ()) Q) : Leaves s (ps.forM giveUp >>= f) Q := by
  induction ps generalizing s with
  | nil => exact h
  | cons p ps ih =>
    exact ih (s := { s with locks := s.locks.leave p.object p.ticket }) h

theorem takes_memory (step : MemoryStep) {k : Nat} (h : s₀.Effects (s.numbered k)) :
    Takes s₀ (s.numbered k) step.take := by
  cases step with
  | alloc role keys handle =>
    refine takes_bind_reads h reads_needOpen fun _ _ h isOpen => ?_
    refine takes_bind_reads h (reads_mapM fun _ _ _ => reads_readKey) fun n keys h _ => ?_
    refine leaves_bind_get (leaves_bind_modify (leaves_pure ?_))
    -- the number is noted down besides the group, so there are two effects
    have hgroup : s₀.Effects { s.numbered n with
        store := (s.store.allocate (.ofKeys role keys)).2
        groups := s.groups.insert handle (s.store.allocate (.ofKeys role keys)).1 } :=
      h.tail (.allocate isOpen)
    refine hgroup.tail (.remember (.inr (.inl ?_)))
    exact Table.mem_values_insert_self
  | remember group handle =>
    refine takes_bind_reads h reads_findGroup fun _ id h given => ?_
    exact leaves_bind_modify (leaves_pure (h.tail (.remember given)))
  | live =>
    refine takes_bind_reads h reads_needOpen fun _ _ h _ => ?_
    exact leaves_bind_get (leaves_pure h)
  | isLive group =>
    refine takes_bind_reads h reads_findGroup fun _ _ h _ => ?_
    refine takes_bind_reads h reads_needOpen fun _ _ h _ => ?_
    exact leaves_bind_get (leaves_pure h)
  | dump group =>
    refine takes_bind_reads h reads_findGroup fun _ _ h _ => ?_
    refine takes_bind_reads h reads_needOpen fun _ _ h _ => ?_
    refine leaves_bind_get (leaves_bind_ofResult h fun g _ => ?_)
    refine takes_bind_reads h (reads_mapM (R := fun _ => True) fun _ _ _ =>
      reads_bind reads_inspectContext fun _ _ _ _ => reads_pure trivial) fun _ _ h _ => ?_
    exact leaves_pure h
  | rawSet group key value handle =>
    refine takes_bind_reads h reads_findGroup fun _ _ h _ => ?_
    refine takes_bind_reads h reads_readKey fun _ _ h _ => ?_
    refine takes_bind_reads h reads_findContext fun _ value h known => ?_
    refine takes_bind_reads h reads_needOpen fun _ _ h _ => ?_
    refine leaves_bind_get (leaves_bind_ofResult h fun r hr => ?_)
    exact leaves_bind_modify (takes_answerContext (h.operate (.set known hr)))
  | rawAdd group key value =>
    refine takes_bind_reads h reads_findGroup fun _ _ h _ => ?_
    refine takes_bind_reads h reads_readKey fun _ _ h _ => ?_
    refine takes_bind_reads h reads_findContext fun _ value h known => ?_
    refine takes_bind_reads h reads_needOpen fun _ _ h _ => ?_
    refine leaves_bind_get (leaves_bind_ofResult h fun r hr => ?_)
    exact leaves_bind_modify (leaves_pure (h.operated (.add known hr)))
  | rawFind group key =>
    refine takes_bind_reads h reads_findGroup fun _ _ h _ => ?_
    refine takes_bind_reads h reads_readKey fun _ _ h _ => ?_
    refine takes_bind_reads h reads_needOpen fun _ _ h _ => ?_
    refine leaves_bind_get (leaves_bind_ofResult h fun g _ => ?_)
    exact takes_bind_reads h reads_inspectContext fun _ _ h _ => leaves_pure h
  | view links target handle =>
    refine takes_bind_reads h (reads_mapM (R := s.Mentions) fun _ _ _ => reads_findGroup)
      fun _ _ h _ => ?_
    refine takes_bind_reads h (reads_mapM_option fun _ => reads_findGroup) fun _ _ h _ => ?_
    refine takes_bind_reads h reads_needOpen fun _ _ h _ => ?_
    exact leaves_bind_modify (leaves_pure (h.tail (.note (Nat.le_refl _))))
  | relink group name handle =>
    refine takes_bind_reads h reads_findGroup fun _ _ h _ => ?_
    refine takes_bind_reads h reads_find fun _ _ h _ => ?_
    exact leaves_bind_modify (leaves_pure (h.tail (.note (Nat.le_refl _))))
  | get through key handle =>
    refine takes_bind_reads h reads_findAccess fun _ a h _ => ?_
    refine takes_bind_reads h reads_readKey fun _ key h _ => ?_
    refine leaves_bind_get (leaves_bind_ofResult h fun value hvalue => ?_)
    obtain ⟨id, hget⟩ := Access.get_cases hvalue
    exact takes_answerContext (h.operate (.get hget))
  | set value through key =>
    refine takes_bind_reads h reads_findContext fun _ value h known => ?_
    refine takes_bind_reads h reads_findAccess fun _ a h _ => ?_
    refine takes_bind_reads h reads_readKey fun _ key h _ => ?_
    refine leaves_bind_get (leaves_bind_ofResult h fun r hr => ?_)
    obtain ⟨id, hset⟩ := Access.set_cases hr
    exact leaves_bind_modify (leaves_pure (h.operated (.set known hset)))
  | add value through key =>
    refine takes_bind_reads h reads_findContext fun _ value h known => ?_
    refine takes_bind_reads h reads_findAccess fun _ a h _ => ?_
    refine takes_bind_reads h reads_readKey fun _ key h _ => ?_
    refine leaves_bind_get (leaves_bind_ofResult h fun r hr => ?_)
    refine leaves_bind_modify (leaves_pure ?_)
    rcases Access.add_cases hr with hsame | ⟨id, hadd⟩
    · -- a view that has the key already adds nothing
      rw [hsame]
      exact h
    · exact h.operated (.add known hadd)
  | has through key =>
    refine takes_bind_reads h reads_findAccess fun _ _ h _ => ?_
    refine takes_bind_reads h reads_readKey fun _ _ h _ => ?_
    exact leaves_bind_get (leaves_bind_ofResult h fun _ _ => leaves_pure h)
  | keys through =>
    refine takes_bind_reads h reads_findAccess fun _ _ h _ => ?_
    exact leaves_bind_get (leaves_bind_ofResult h fun _ _ => leaves_pure h)
  | find through name =>
    refine takes_bind_reads h reads_findAccess fun _ _ h _ => ?_
    exact leaves_bind_get (leaves_bind_ofResult h fun _ _ => leaves_pure h)
  | drop what name => exact leaves_bind_pure (takes_dropNamed what name h)
  | close =>
    refine leaves_bind_get (leaves_bind_giveUp _ ?_)
    exact leaves_bind_modify (leaves_pure (h.tail .close))
  | debug target =>
    exact takes_bind_reads h reads_debugText fun _ _ h _ => leaves_pure h

/-! ### Steps on objects -/

/-- An operation on the store that makes an object, which is then kept. -/
theorem takes_bind_made {action : Session → Outcome ObjectRef} {handle : String}
    (h : s₀.Effects s) (hop : s.Operation ((action s).1.map some, (action s).2)) :
    Takes s₀ s (onStore action >>= answerObject handle) := by
  refine leaves_bind_onStore ?_ ?_
  · intro e _
    exact h.operated hop
  · intro o ho
    rw [ho] at hop
    exact takes_answerObject (h.operate hop _)

theorem takes_object (step : ObjectStep) {k : Nat} (h : s₀.Effects (s.numbered k)) :
    Takes s₀ (s.numbered k) step.take := by
  cases step with
  | instantiate type handle =>
    refine takes_bind_reads h reads_needOpen fun _ _ h isOpen => ?_
    refine takes_bind_reads h reads_find fun _ type h known => ?_
    refine leaves_bind_get (leaves_bind_modify ?_)
    exact takes_answerObject (h.operate (.instantiate isOpen (Table.mem_values_of_find? known)) _)
  | bind type value handle =>
    refine takes_bind_reads h reads_needOpen fun _ _ h isOpen => ?_
    refine takes_bind_reads h reads_find fun _ type h known => ?_
    refine takes_bind_reads h reads_makePayload fun _ value h _ => ?_
    exact takes_bind_made h (.bind isOpen (Table.mem_values_of_find? known))
  | construct type scope handle =>
    refine takes_bind_reads h reads_needOpen fun _ _ h isOpen => ?_
    refine takes_bind_reads h reads_find fun _ type h known => ?_
    cases scope with
    | some scope =>
      refine takes_bind_reads h reads_readScope fun _ scope h given => ?_
      exact takes_bind_made h (.construct isOpen (Table.mem_values_of_find? known) given)
    | none =>
      refine leaves_bind_get (takes_bind_made h ?_)
      exact .construct isOpen (Table.mem_values_of_find? known) fun id hid => by cases hid
  | refer object handle =>
    refine takes_bind_reads h reads_find fun _ o h known => ?_
    exact takes_answerObject (h.operate (.refer (Table.mem_values_of_find? known)) _)
  | same a b =>
    refine takes_bind_reads h reads_find fun _ _ h _ => ?_
    exact takes_bind_reads h reads_find fun _ _ h _ => leaves_pure h
  | satisfies name object =>
    refine takes_bind_reads h reads_readName fun _ _ h _ => ?_
    exact takes_bind_reads h reads_find fun _ _ h _ => leaves_pure h
  | setPayload object value =>
    refine takes_bind_reads h reads_find fun _ o h known => ?_
    refine takes_bind_reads h reads_makePayload fun _ value h _ => ?_
    refine leaves_bind_get (leaves_bind_ofResult h fun store hset => ?_)
    refine leaves_bind_modify (leaves_pure ?_)
    exact h.operated (.setPayload (Table.mem_values_of_find? known) hset)
  | copyPayload source target =>
    refine leaves_bind_get ?_
    refine takes_bind_reads h reads_find fun _ _ h _ => ?_
    refine leaves_bind_ofResult h fun value _ => ?_
    refine takes_bind_reads h reads_find fun _ o h known => ?_
    refine leaves_bind_get (leaves_bind_ofResult h fun store hset => ?_)
    refine leaves_bind_modify (leaves_pure ?_)
    exact h.operated (.setPayload (Table.mem_values_of_find? known) hset)
  | payloadsEqual a b =>
    refine leaves_bind_get ?_
    refine takes_bind_reads h reads_find fun _ _ h _ => ?_
    refine leaves_bind_ofResult h fun _ _ => ?_
    refine takes_bind_reads h reads_find fun _ _ h _ => ?_
    exact leaves_bind_ofResult h fun _ _ => leaves_pure h
  | payload object reader =>
    refine takes_bind_reads h reads_find fun _ _ h _ => ?_
    exact leaves_bind_get (leaves_bind_ofResult h fun _ _ => leaves_pure h)
  | memberKey object name withPrivate =>
    refine takes_bind_reads h reads_find fun _ _ h _ => ?_
    exact leaves_bind_ofResult h fun _ _ => leaves_pure h
  | read object name withPrivate handle =>
    refine takes_bind_reads h reads_find fun _ _ h _ => ?_
    refine takes_bind_reads h reads_needOpen fun _ _ h _ => ?_
    refine leaves_bind_ofResult h fun key _ => ?_
    refine leaves_bind_get (leaves_bind_ofResult h fun value hvalue => ?_)
    exact takes_answerContext (h.operate (.get hvalue))
  | write value object name withPrivate =>
    refine takes_bind_reads h reads_findContext fun _ value h known => ?_
    refine takes_bind_reads h reads_find fun _ _ h _ => ?_
    refine takes_bind_reads h reads_needOpen fun _ _ h _ => ?_
    refine leaves_bind_ofResult h fun key _ => ?_
    refine leaves_bind_get (leaves_bind_ofResult h fun r hr => ?_)
    exact leaves_bind_modify (leaves_pure (h.operated (.set known hr)))

/-! ### Steps on libraries -/

/-- A copy of a script goes into a draft and is then kept under a name. -/
theorem takes_addToDraft {script : Script} {builder handle : String} {g : Script → β} {k : Nat}
    (h : s₀.Effects (s.numbered k)) (given : ∀ id, script.Mentions id → s.Mentions id) :
    Takes s₀ (s.numbered k) (addToDraft script builder >>= fun copy =>
      modify (fun s => { s with scripts := s.scripts.insert handle copy }) >>= fun _ =>
        pure (g copy)) := by
  simp only [addToDraft, bind_assoc, pure_bind]
  refine takes_bind_reads h reads_find fun _ d h hd => ?_
  refine leaves_bind_fresh (leaves_bind_ofResult (h.numbered (Nat.le_succ _)) fun r hr => ?_)
  exact leaves_bind_modify (leaves_bind_modify (leaves_pure (h.tail (.addScript hd hr given))))

theorem takes_library (step : LibraryStep) {k : Nat} (h : s₀.Effects (s.numbered k)) :
    Takes s₀ (s.numbered k) step.take := by
  cases step with
  | start name handle =>
    refine takes_bind_reads h reads_needOpen fun _ _ h isOpen => ?_
    refine leaves_bind_get (leaves_bind_modify (leaves_bind_modify (leaves_pure ?_)))
    exact h.tail (.draft isOpen)
  | depend library builder =>
    refine takes_bind_reads h reads_find fun _ l h known => ?_
    refine takes_bind_reads h reads_find fun _ d h hd => ?_
    refine leaves_bind_modify (leaves_pure ?_)
    exact h.tail (.depend hd (Table.mem_values_of_find? known))
  | define definition builder =>
    refine takes_bind_reads h reads_findDefinition fun _ x h known => ?_
    refine takes_bind_reads h reads_find fun _ d h hd => ?_
    refine leaves_bind_ofResult h fun d' hd' => ?_
    exact leaves_bind_modify (leaves_pure (h.tail (.define hd known hd')))
  | addStatic value key builder =>
    refine takes_bind_reads h reads_findContext fun _ value h known => ?_
    refine takes_bind_reads h reads_readKey fun _ key h _ => ?_
    refine takes_bind_reads h reads_find fun _ d h _ => ?_
    refine leaves_bind_get (leaves_bind_ofResult h fun r hr => ?_)
    exact leaves_bind_modify (leaves_pure (h.operated (.add known hr)))
  | addScript script builder handle =>
    refine takes_bind_reads h reads_findScript fun _ script h given => ?_
    exact takes_addToDraft h given
  | build builder handle =>
    refine takes_bind_reads h reads_find fun n d h hd => ?_
    -- the draft is gone even if no library comes of it
    have hdrop : s₀.Effects ((s.numbered n).without builder .builder) := h.tail .drop
    refine leaves_bind_modify (leaves_bind_ofResult hdrop fun l hl => ?_)
    exact leaves_bind_modify (leaves_pure (h.tail (.build hd hl)))
  | describe library =>
    exact takes_bind_reads h reads_find fun _ _ h _ => leaves_pure h
  | load library =>
    refine takes_bind_reads h reads_find fun _ l h known => ?_
    refine takes_bind_reads h reads_needOpen fun _ _ h isOpen => ?_
    refine leaves_bind_get ?_
    split
    · -- a library that cannot be loaded leaves the catalog as it is
      exact h
    · rename_i catalog hload
      refine leaves_bind_modify (leaves_pure ?_)
      exact h.tail (.load isOpen (Table.mem_values_of_find? known) hload)
  | loaded name =>
    refine takes_bind_reads h reads_needOpen fun _ _ h _ => ?_
    exact leaves_bind_get (leaves_pure h)
  | resolveIn name library =>
    refine takes_bind_reads h reads_readName fun _ _ h _ => ?_
    exact takes_bind_reads h reads_find fun _ _ h _ => leaves_pure h
  | resolve name what handle =>
    refine takes_bind_reads h reads_readName fun _ name h _ => ?_
    refine takes_bind_reads h reads_needOpen fun _ _ h _ => ?_
    refine leaves_bind_get ?_
    cases what with
    | any => exact leaves_bind_ofResult h fun _ _ => leaves_pure h
    | type => exact leaves_bind_ofResult h fun _ _ => leaves_pure h
    | script =>
      refine leaves_bind_ofResult h fun script hscript => ?_
      cases handle with
      | none => exact leaves_pure h
      | some handle => exact leaves_bind_modify (leaves_pure (h.tail (.resolve hscript)))
  | config =>
    refine takes_bind_reads h reads_needOpen fun _ _ h _ => ?_
    exact leaves_bind_get (leaves_pure h)

/-! ### Steps on scripts and calls -/

theorem takes_startCall {c : Call} {handle pending : Option String} {k : Nat}
    (h : s₀.Effects (s.numbered k)) (isOpen : s.isOpen = true) (known : s.KnowsCall c)
    (given : ∀ id, c.Mentions id → s.Mentions id) :
    Takes s₀ (s.numbered k) (startCall c handle pending) := by
  refine leaves_bind_get ?_
  split
  · exact takes_ofResult (h.operate (.call isOpen known given))
  · rename_i object _
    refine leaves_bind_fresh (leaves_bind_get ?_)
    split
    · rename_i locks free
      -- the lock is taken before the run and left after it, and the run takes no notice
      have h : s₀.Effects { s.numbered (k + 1) with locks := locks.leave object k } :=
        h.tail (.pass free)
      exact takes_ofResult (h.operate (.call isOpen known given))
    · rename_i taken
      cases pending with
      | none => exact leaves_pure (h.numbered (Nat.le_succ _))
      | some name =>
        have h : s₀.Effects { s.numbered (k + 1) with
            locks := leaving (s.locks.enqueue object k) (s.place? name)
            pendings := s.pendings.insert name ⟨c, object, k⟩ } :=
          h.tail (.wait isOpen known given taken)
        refine leaves_bind_modify (leaves_bind_get (leaves_bind_modify ?_))
        change Leaves _ ((s.pendings.find? name).forM giveUp >>= fun _ => _) _
        rw [place?] at h
        cases hp : s.pendings.find? name with
        | none =>
          rw [hp] at h
          exact leaves_pure h
        | some p =>
          rw [hp] at h
          exact leaves_bind_modify (leaves_pure h)

theorem takes_pollCall {name : String} {handle : Option String} {k : Nat}
    (h : s₀.Effects (s.numbered k)) : Takes s₀ (s.numbered k) (pollCall name handle) := by
  refine takes_bind_reads h reads_find fun n p h hp => leaves_bind_get ?_
  split
  · rename_i turn
    have hplace : (s.numbered n).place? name = some (p.object, p.ticket) :=
      congrArg (Option.map fun p : Pending => (p.object, p.ticket)) hp
    have hwithout : (s.numbered n).without name .pending = { s.numbered n with
        pendings := s.pendings.erase name, locks := s.locks.leave p.object p.ticket } := by
      rw [without, hplace]
      rfl
    exact takes_ofResult fun name =>
      h.tail (.resume hp hwithout.symm turn (Moment.comesTo_outcome _ ⟨.call _ _, [], _⟩))
  · exact leaves_pure h

theorem takes_takeLock {object handle : String} {k : Nat} (h : s₀.Effects (s.numbered k)) :
    Takes s₀ (s.numbered k) (takeLock object handle) := by
  refine takes_bind_reads h reads_find fun n o h known => leaves_bind_fresh (leaves_bind_get ?_)
  split
  · exact leaves_pure (h.numbered (Nat.le_succ _))
  · rename_i locks free
    have h : s₀.Effects { s.numbered (n + 1) with
        locks := leaving locks (s.guard? handle)
        guards := s.guards.insert handle ⟨o.group, n⟩ } :=
      h.tail (.lock (Table.mem_values_of_find? known) free)
    refine leaves_bind_get (leaves_bind_modify ?_)
    change Leaves _ ((s.guards.find? handle).forM releaseGuard >>= fun _ => _) _
    rw [guard?] at h
    cases hg : s.guards.find? handle with
    | none =>
      rw [hg] at h
      exact leaves_pure h
    | some g =>
      rw [hg] at h
      exact leaves_bind_modify (leaves_pure h)

theorem takes_call (step : CallStep) {k : Nat} (h : s₀.Effects (s.numbered k)) :
    Takes s₀ (s.numbered k) step.take := by
  cases step with
  | script name params returns commands statics builder handle =>
    refine takes_bind_reads h reads_readName fun _ name h _ => ?_
    refine takes_bind_reads h (reads_mapM fun _ _ _ => reads_readKey) fun _ params h _ => ?_
    refine takes_bind_reads h (reads_mapM_option fun _ => reads_readName) fun _ returns h _ => ?_
    refine takes_bind_reads h reads_readCommands fun _ commands h hcommands => ?_
    refine takes_bind_reads h (reads_mapM_option fun _ => reads_findGroup)
      fun n statics h hstatics => ?_
    have given : ∀ id, (Script.mk n name params returns commands statics).Mentions id →
        s.Mentions id := fun id hid => hid.elim (hstatics id) (hcommands id)
    refine leaves_bind_fresh ?_
    cases builder with
    | some builder =>
      -- the script itself is lost, and its number with it; the copy draws another
      have h' : s₀.Effects (s.numbered (n + 1)) := h.numbered (Nat.le_succ _)
      exact takes_addToDraft h' given
    | none =>
      dsimp only
      rw [pure_bind]
      refine leaves_bind_modify (leaves_pure ?_)
      exact h.tail (.script rfl given)
  | command text =>
    exact takes_bind_reads h reads_readCommand fun _ _ h _ => leaves_pure h
  | run invocation handle pending =>
    refine takes_bind_reads h reads_needOpen fun _ _ h isOpen => ?_
    refine takes_bind_reads h reads_readInvocation fun _ c h known => ?_
    exact takes_startCall h isOpen known.1 known.2
  | poll pending handle => exact takes_pollCall h
  | lock object handle => exact takes_takeLock h
  | token handle =>
    refine leaves_bind_fresh (leaves_bind_modify (leaves_pure ?_))
    exact h.tail (.note (Nat.le_succ _))
  | cancel name =>
    refine takes_bind_reads h reads_findToken fun _ id h _ => ?_
    refine leaves_bind_get ?_
    dsimp only
    split
    · exact leaves_pure h
    · exact leaves_bind_modify (leaves_pure (h.tail (.note (Nat.le_refl _))))
  | runAt call scope handle =>
    refine takes_bind_reads h reads_readCall fun _ call h known => ?_
    refine takes_bind_reads h reads_readScope fun _ scope h given => ?_
    refine takes_bind_reads h reads_needOpen fun _ _ h isOpen => ?_
    exact takes_ofResult (h.operate (.call isOpen (known scope).1 ((known scope).2 given)))
  | enter call scope handle =>
    refine takes_bind_reads h reads_readCall fun _ call h known => ?_
    refine takes_bind_reads h reads_readScope fun _ scope h given => ?_
    refine takes_bind_reads h reads_needOpen fun n _ h isOpen => ?_
    have h : s₀.Effects ((s.numbered n).entered (Thread.enter (s.numbered n).store
        (call scope).script (call scope).invoker (call scope).args (call scope).scope) handle) :=
      h.tail (.enter isOpen (known scope).1 ((known scope).2 given))
    refine leaves_bind_onStore ?_ ?_
    · -- a call that cannot be entered may have drawn numbers from the store
      intro e he
      rw [entered, he] at h
      exact h
    · intro t ht
      rw [entered, ht] at h
      exact leaves_bind_modify (takes_of_reads h reads_answerThread)
  | thread name object =>
    refine takes_bind_reads h reads_find fun _ _ h _ => ?_
    refine takes_bind_reads h reads_findContext fun _ _ h _ => ?_
    exact takes_of_reads h reads_answerThread
  | execute text ctx name handle =>
    refine takes_bind_reads h reads_readCommand fun _ c h given => ?_
    refine takes_bind_reads h reads_findContext fun _ ctx h known => ?_
    refine takes_bind_reads h reads_find fun _ t h ht => ?_
    exact takes_ofResult (h.operate (.command (Table.mem_values_of_find? ht) known given))
  | executeAll texts ctx name handle =>
    refine takes_bind_reads h reads_readCommands fun _ cs h given => ?_
    refine takes_bind_reads h reads_findContext fun _ ctx h known => ?_
    refine takes_bind_reads h reads_find fun _ t h ht => ?_
    exact takes_ofResult (h.operate (.commands (Table.mem_values_of_find? ht) known given))

/-- **Every step is a chain of effects**, whether it works or not. -/
theorem effects_take (step : Step) (s : Session) : s.Effects ((step.take.run).run s).2 := by
  cases step with
  | definition step => exact takes_definition step (.refl s)
  | memory step => exact takes_memory step (.refl s)
  | object step => exact takes_object step (.refl s)
  | library step => exact takes_library step (.refl s)
  | call step => exact takes_call step (.refl s)

end Host

namespace Session

theorem effects_step (s : Session) (step : Step) : s.Effects (s.step step).2 :=
  (Host.effects_take step s).tail .tidy

theorem effects_steps (s : Session) (steps : List Step) : s.Effects (s.steps steps).2 := by
  induction steps generalizing s with
  | nil => exact .refl s
  | cons step steps ih => exact Relation.ReflTransGen.trans (s.effects_step step) (ih _)

/-- What can become of a session next: what a step of the host leaves behind, or a run in the
course of which somebody was cancelled.  Whatever then has no owner or reference goes. -/
inductive Becomes (s : Session) : Session → Prop where
  | step (step : Step) : Becomes s (s.step step).2
  | run {task : Task} {out : Outcome Context} {handle : Option String} (h : s.Starts task)
      (hrun : Moment.ComesTo s.env ⟨task, [], s.store⟩ out) : Becomes s (s.after out handle).tidy
  | resume {s' : Session} {p : Pending} {name : String} {out : Outcome Context}
      {handle : Option String} (h : s.pendings.find? name = some p)
      (hs : s' = s.without name .pending) (turn : s.locks.holds p.object p.ticket = true)
      (hrun : Moment.ComesTo s'.env ⟨.call s'.held p.call, [], s'.store⟩ out) :
      Becomes s (s'.after out handle).tidy

theorem Becomes.effects {s s' : Session} (h : s.Becomes s') : ∃ x, s.Effects x ∧ s' = x.tidy := by
  cases h with
  | step step => exact ⟨_, Host.effects_take step s, rfl⟩
  | run h hrun => exact ⟨_, .single (.operate (.run h hrun)), rfl⟩
  | resume h hs turn hrun => exact ⟨_, .single (.resume h hs turn hrun), rfl⟩

/-- The sessions there can be: what becomes of those that have just begun. -/
def Reachable (s : Session) : Prop :=
  ∃ config, Relation.ReflTransGen Becomes (start config) s

/-- What holds of a session that has just begun and is kept by every effect holds of every
session there can be. -/
theorem Reachable.induct {P : Session → Prop} (start : ∀ config, P (Session.start config))
    (effect : ∀ {s s'}, Effect s s' → P s → P s') {s : Session} (h : s.Reachable) : P s := by
  obtain ⟨config, h⟩ := h
  induction h with
  | refl => exact start config
  | tail _ hbecomes ih =>
    obtain ⟨x, heffects, rfl⟩ := hbecomes.effects
    exact (heffects.tail .tidy).invariant effect ih

theorem Reachable.becomes {s s' : Session} (h : s.Reachable) (hs' : s.Becomes s') :
    s'.Reachable := by
  obtain ⟨config, h⟩ := h
  exact ⟨config, h.tail hs'⟩

theorem Reachable.step {s : Session} (h : s.Reachable) (step : Step) : (s.step step).2.Reachable :=
  h.becomes (.step step)

theorem Reachable.steps {s : Session} (h : s.Reachable) (steps : List Step) :
    (s.steps steps).2.Reachable := by
  induction steps generalizing s with
  | nil => exact h
  | cons step steps ih => exact ih (h.step step)

/-- What a host gets to by taking steps from the start. -/
theorem reachable_steps (config : Config) (steps : List Step) :
    ((start config).steps steps).2.Reachable :=
  Reachable.steps ⟨config, .refl⟩ steps

/-- A session has just begun, or it was tidied up last. -/
theorem Reachable.eq_start_or_tidy {s : Session} (h : s.Reachable) :
    (∃ config, s = start config) ∨
      ∃ r x : Session, r.Reachable ∧ r.Effects x ∧ s = x.tidy := by
  obtain ⟨config, h⟩ := h
  rcases Relation.ReflTransGen.cases_tail h with rfl | ⟨r, hr, hbecomes⟩
  · exact .inl ⟨config, rfl⟩
  · obtain ⟨x, heffects, rfl⟩ := hbecomes.effects
    exact .inr ⟨r, x, ⟨config, hr⟩, heffects, rfl⟩

end Session

end Steward
