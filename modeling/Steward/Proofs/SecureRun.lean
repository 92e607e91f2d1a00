/-
Secure runs: at every moment of a run, what it refers to is there.

A run lets go of an object only if nothing refers to it and it is not held.  What a task holds
grows from the outside to the inside: whatever waits for its result is held by the task, and so
is all that it will need when it goes on.

* **`Task.Ready`**, **`Frame.Ready`** — what a task or a frame refers to is there, and in the case
  of a frame held by what runs inside of it;
* **`Stacked`** — so all the way down, until the references `base` that were held from the start;
* **`Next.secure`** — every step keeps this;
* **`Secure.has_invoker`** — so the invoker of a thread that is alive is there, at any depth,
  whatever is overwritten inside;
* **`ComesTo.lands`**, **`ComesTo.returns`** — at the end the result is there, and it is of the
  type that the script declares.
-/
import Steward.Proofs.Moments
import Steward.Proofs.SoundRun

namespace Steward

namespace Store

variable {s s' : Store} {kept kept' : GroupId → Prop} {ctx : Context}

/-- Whether the object a context refers to, if any, is there and among those `kept`. -/
def Guarded (s : Store) (kept : GroupId → Prop) (ctx : Context) : Prop :=
  ∀ o, ctx = some o → s.Has o ∧ kept o.group

theorem Guarded.hasContext (h : s.Guarded kept ctx) : s.HasContext ctx :=
  fun o ho => (h o ho).1

theorem Guarded.evolves (h : s.Guarded kept ctx) (hev : s.Evolves kept s') :
    s'.Guarded kept ctx :=
  fun o ho => ⟨hev.keeps (h o ho).2 (h o ho).1, (h o ho).2⟩

theorem Guarded.mono (h : s.Guarded kept ctx) (hk : ∀ id, kept id → kept' id) :
    s.Guarded kept' ctx :=
  fun o ho => ⟨(h o ho).1, hk _ (h o ho).2⟩

theorem HasContext.guarded (h : s.HasContext ctx) (hk : ∀ id ∈ ctx.refs, kept id) :
    s.Guarded kept ctx :=
  fun o ho => ⟨h o ho, hk _ (Context.group_mem_refs ho)⟩

end Store

/-- What a task does not let go of: what is held outside, and when there is a result, everything,
since nothing more is done. -/
def Task.kept : Task → GroupId → Prop
  | call held _ => (· ∈ held)
  | construct held _ _ _ => (· ∈ held)
  | commands held _ _ _ _ => (· ∈ held)
  | command held _ _ _ => (· ∈ held)
  | dispatched held _ _ _ => (· ∈ held)
  | inputs held _ _ _ _ _ => (· ∈ held)
  | done _ => fun _ => True

/-- What is held while a frame waits and when it goes on. -/
def Frame.held : Frame → Held
  | commands held _ _ _ => held
  | inputs held _ _ _ _ _ => held
  | object held _ _ => held
  | thread held _ => held

/-- Whether what a task refers to is there, and the invoker of its thread held. -/
def Task.Ready (s : Store) : Task → Prop
  | call _ c => s.HasContext c.invoker ∧ ∀ a ∈ c.args, s.HasContext a
  | construct _ _ _ _ => True
  | commands held t _ ctx _ => s.Guarded (· ∈ held) t.invoker ∧ s.HasContext ctx
  | command held t ctx _ => s.Guarded (· ∈ held) t.invoker ∧ s.HasContext ctx
  | dispatched held t ctx _ => s.Guarded (· ∈ held) t.invoker ∧ s.HasContext ctx
  | inputs held t ctx _ args _ =>
    s.Guarded (· ∈ held) t.invoker ∧ s.HasContext ctx ∧ ∀ a ∈ args, s.HasContext a
  | done (.ok ctx) => s.HasContext ctx
  | done (.error _) => True

/-- Whether what a frame refers to is there and `kept` while it waits. -/
def Frame.Ready (s : Store) (kept : GroupId → Prop) : Frame → Prop
  | commands held t _ _ => s.Guarded (· ∈ held) t.invoker
  | inputs held t ctx _ args _ =>
    s.Guarded (· ∈ held) t.invoker ∧ s.Guarded kept ctx ∧ ∀ a ∈ args, s.Guarded kept a
  | object _ _ o => s.Guarded kept (some o)
  | thread _ t => s.Spare t.inputs ∧ s.Spare t.locals ∧ s.Guarded kept t.invoker

/-- Whether each of some frames is ready, and all that it holds is `kept` by what runs inside of
it; the last one holds the references `base`. -/
def Stacked (base : GroupId → Prop) (s : Store) : (GroupId → Prop) → List Frame → Prop
  | kept, [] => ∀ id, base id → kept id
  | kept, f :: fs => f.Ready s kept ∧ (∀ id ∈ f.held, kept id) ∧ Stacked base s (· ∈ f.held) fs

section Stacked

variable {base kept kept' : GroupId → Prop} {s s' : Store} {f : Frame} {fs : List Frame}

theorem Frame.Ready.mono (h : f.Ready s kept) (hk : ∀ id, kept id → kept' id) :
    f.Ready s kept' := by
  cases f with
  | commands held t completed rest => exact h
  | inputs held t ctx script args rest =>
    exact ⟨h.1, h.2.1.mono hk, fun a ha => (h.2.2 a ha).mono hk⟩
  | object held ctx o => exact Store.Guarded.mono h hk
  | thread held t => exact ⟨h.1, h.2.1, h.2.2.mono hk⟩

theorem Frame.Ready.evolves (h : f.Ready s kept) (hheld : ∀ id ∈ f.held, kept id)
    (hev : s.Evolves kept s') : f.Ready s' kept := by
  cases f with
  | commands held t completed rest => exact Store.Guarded.evolves h (hev.mono hheld)
  | inputs held t ctx script args rest =>
    exact ⟨h.1.evolves (hev.mono hheld), h.2.1.evolves hev, fun a ha => (h.2.2 a ha).evolves hev⟩
  | object held ctx o => exact Store.Guarded.evolves h hev
  | thread held t => exact ⟨hev.spare h.1, hev.spare h.2.1, h.2.2.evolves hev⟩

theorem Stacked.mono (h : Stacked base s kept fs) (hk : ∀ id, kept id → kept' id) :
    Stacked base s kept' fs := by
  cases fs with
  | nil => exact fun id hid => hk id (h id hid)
  | cons f fs => exact ⟨h.1.mono hk, fun id hid => hk id (h.2.1 id hid), h.2.2⟩

theorem Stacked.evolves (h : Stacked base s kept fs) (hev : s.Evolves kept s') :
    Stacked base s' kept fs := by
  induction fs generalizing kept with
  | nil => exact h
  | cons f fs ih => exact ⟨h.1.evolves h.2.1 hev, h.2.1, ih h.2.2 (hev.mono h.2.1)⟩

/-- What was held from the start is held all the way. -/
theorem Stacked.base_kept (h : Stacked base s kept fs) : ∀ id, base id → kept id := by
  induction fs generalizing kept with
  | nil => exact h
  | cons f fs ih => exact fun id hid => h.2.1 id (ih h.2.2 id hid)

theorem Stacked.ready_of_mem (h : Stacked base s kept fs) (hf : f ∈ fs) :
    ∃ kept, f.Ready s kept := by
  induction fs generalizing kept with
  | nil => exact absurd hf List.not_mem_nil
  | cons f' fs ih =>
    rcases List.mem_cons.mp hf with rfl | hf
    · exact ⟨kept, h.1⟩
    · exact ih h.2.2 hf

end Stacked

namespace Moment

variable {env : Env} {m m' : Moment} {base : GroupId → Prop} {s₀ : Store}

/-- What holds at every moment of a run that began in `s₀`, where the references `base` were
held. -/
structure Secure (base : GroupId → Prop) (s₀ : Store) (m : Moment) : Prop where
  evolves : s₀.Evolves base m.store
  ready : m.task.Ready m.store
  stacked : Stacked base m.store m.task.kept m.frames

section Secure

variable {kept : GroupId → Prop} {s s' : Store} {task : Task} {f : Frame} {fs : List Frame}

/-- A task takes the place of another one. -/
theorem secure_of_kept (h₀ : s₀.Evolves base s) (hstack : Stacked base s kept fs)
    (hev : s.Evolves kept s') (hk : ∀ id, kept id → task.kept id) (ready : task.Ready s') :
    Secure base s₀ ⟨task, fs, s'⟩ where
  evolves := h₀.trans (hev.mono hstack.base_kept)
  ready := ready
  stacked := (hstack.evolves hev).mono hk

/-- A task begins for whose result a frame waits. -/
theorem secure_of_frame (h₀ : s₀.Evolves base s) (hstack : Stacked base s (· ∈ f.held) fs)
    (hev : s.Evolves (· ∈ f.held) s') (hk : ∀ id ∈ f.held, task.kept id)
    (hframe : f.Ready s' task.kept) (ready : task.Ready s') :
    Secure base s₀ ⟨task, f :: fs, s'⟩ where
  evolves := h₀.trans (hev.mono hstack.base_kept)
  ready := ready
  stacked := ⟨hframe, hk, hstack.evolves hev⟩

/-- There is a result, or none. -/
theorem secure_done {result : Except Error Context} (h₀ : s₀.Evolves base s)
    (hstack : Stacked base s kept fs) (hev : s.Evolves kept s')
    (hresult : ∀ ctx, result = .ok ctx → s'.HasContext ctx) :
    Secure base s₀ ⟨.done result, fs, s'⟩ := by
  refine secure_of_kept h₀ hstack hev (fun _ _ => trivial) ?_
  cases result with
  | error e => trivial
  | ok ctx => exact hresult ctx rfl

end Secure

/-- A frame goes on with a result that is there. -/
theorem secure_resume {f : Frame} {fs : List Frame} {s : Store} {ctx : Context}
    (h : Secure base s₀ ⟨.done (.ok ctx), f :: fs, s⟩) :
    Secure base s₀ ⟨(f.resume ctx s).1, fs, (f.resume ctx s).2⟩ := by
  obtain ⟨h₀, hctx, hframe, -, hstack⟩ := h
  have hs : s.Sound := h₀.sound
  cases f with
  | commands held t completed rest =>
    exact secure_of_kept h₀ hstack (.refl hs) (fun _ hid => hid) ⟨hframe, hctx⟩
  | inputs held t ctx' script args rest =>
    refine secure_of_kept h₀ hstack (.refl hs) (fun _ hid => hid)
      ⟨hframe.1, hframe.2.1.hasContext, fun a ha => ?_⟩
    rcases List.mem_append.mp ha with ha | ha
    · exact (hframe.2.2 a ha).hasContext
    · obtain rfl := List.mem_singleton.mp ha
      exact hctx
  | object held ctx' o =>
    -- the object is held while both contexts are let go
    have hgo := Store.evolves_letGo hs ((held.insertMany ctx'.refs).insert o.group) ctx.refs
    have hgo' := Store.evolves_letGo hgo.sound (held.insert o.group) ctx'.refs
    have hinner : ∀ id, id ∈ held.insert o.group →
        id ∈ (held.insertMany ctx'.refs).insert o.group := by
      intro id hid
      rcases Held.mem_insert.mp hid with heq | hid
      · exact Held.mem_insert.mpr (.inl heq)
      · exact Held.mem_insert.mpr (.inr (Held.mem_insertMany.mpr (.inl hid)))
    have hev := (hgo.mono hinner).trans hgo'
    refine secure_done h₀ hstack (hev.mono fun id hid => Held.mem_insert.mpr (.inr hid)) ?_
    rintro _ ⟨rfl⟩
    exact Store.hasContext_some (hev.keeps (Held.mem_insert.mpr (.inl rfl)) (hframe o rfl).1)
  | thread held t =>
    have hleave : s.Evolves (· ∈ held) (t.leave s) :=
      Thread.evolves_leave hs hframe.1 hframe.2.1
    dsimp only [Frame.resume]
    split
    · exact secure_done h₀ hstack hleave fun _ hr => by cases hr
    · rename_i value hvalue
      have hhas : (t.leave s).HasContext value := by
        intro o ho
        have hhas := hctx o (Script.result_cases hvalue ho).1
        simpa only [Store.Has, Thread.leave, Store.objectAt?_release] using hhas
      obtain ⟨hev, hresult⟩ := lands_letGo hleave hhas
        (Context.refs t.invoker ++ ctx.refs ++ s.valuesIn t.inputs ++ s.valuesIn t.locals)
      exact secure_done h₀ hstack hev hresult

/-- A call is entered with its invoker held and its arguments in slots. -/
theorem secure_entered {held : Held} {c : Call} {t : Thread} {fs : List Frame} {s s' : Store}
    (h : Secure base s₀ ⟨.call held c, fs, s⟩)
    (he : Thread.enter s c.script c.invoker c.args c.scope = (.ok t, s')) :
    Secure base s₀ ⟨.commands (held.insertMany c.invoker.refs) t 0 none c.script.commands,
      .thread held t :: fs,
      s'.letGo (held.insertMany c.invoker.refs) (c.args.flatMap Context.refs)⟩ := by
  obtain ⟨h₀, ⟨hinvoker, hargs⟩, hstack⟩ := h
  have henter : Lands (fun _ => True) s _ (Thread.enter s c.script c.invoker c.args c.scope) :=
    Thread.lands_enter h₀.sound hargs
  rw [he] at henter
  obtain ⟨htinvoker, hinputs, hlocals⟩ := henter.result t rfl
  have hgo := Store.evolves_letGo henter.evolves.sound (held.insertMany c.invoker.refs)
    (c.args.flatMap Context.refs)
  have hguarded : s'.Guarded (· ∈ held.insertMany c.invoker.refs) t.invoker := by
    rw [htinvoker]
    refine Store.HasContext.guarded ?_ fun id hid => Held.mem_insertMany.mpr (.inr hid)
    exact henter.evolves.hasContext hinvoker fun _ _ => trivial
  refine secure_of_frame h₀ hstack ?_ (Held.wider _) ?_
    ⟨hguarded.evolves hgo, Store.hasContext_none _⟩
  · exact (henter.evolves.mono fun _ _ => trivial).trans (hgo.mono (Held.wider _))
  · exact ⟨hgo.spare hinputs, hgo.spare hlocals, hguarded.evolves hgo⟩

/-- **Every step keeps a run secure.** -/
theorem Next.secure (h : Next env m m') (hm : Secure base s₀ m) : Secure base s₀ m' := by
  have hsound : m.store.Sound := hm.evolves.sound
  cases h with
  | entered h he => exact secure_entered hm he
  | resume => exact secure_resume hm
  | @abandon e f fs s =>
    obtain ⟨h₀, -, hframe, -, hstack⟩ := hm
    refine secure_done h₀ hstack ?_ fun _ hr => by cases hr
    cases f with
    | commands | inputs | object => exact .refl hsound
    | thread held t => exact Thread.evolves_leave hsound hframe.1 hframe.2.1
  | @notEntered s s' e held c fs h he =>
    obtain ⟨h₀, ⟨-, hargs⟩, hstack⟩ := hm
    have henter : Lands (· ∈ held) s _ (Thread.enter s c.script c.invoker c.args c.scope) :=
      Thread.lands_enter hsound hargs
    rw [he] at henter
    exact secure_done h₀ hstack henter.evolves fun _ hr => by cases hr
  | @made held ctx type scope fs s h =>
    obtain ⟨h₀, -, hstack⟩ := hm
    have hinst : s.Evolves (· ∈ held) (s.instantiate type).2 :=
      Store.evolves_instantiate hsound type
    obtain ⟨hev, hresult⟩ := lands_letGo hinst
      (Store.hasContext_some (Store.has_instantiate type)) ctx.refs
    exact secure_done h₀ hstack hev hresult
  | @noConstructor ctor e held ctx type scope fs s h hr =>
    obtain ⟨h₀, -, hstack⟩ := hm
    exact secure_done h₀ hstack (Store.evolves_instantiate hsound type) fun _ hr => by cases hr
  | @callConstructor ctor script held ctx type scope fs s h hr =>
    obtain ⟨h₀, -, hstack⟩ := hm
    have hhas := Store.hasContext_some (Store.has_instantiate (s := s) type)
    refine secure_of_frame h₀ hstack (Store.evolves_instantiate hsound type) ?_ ?_
      ⟨hhas, fun a ha => absurd ha List.not_mem_nil⟩
    · exact fun id hid => Held.mem_insert.mpr (.inr (Held.mem_insertMany.mpr (.inl hid)))
    · refine hhas.guarded fun id hid => ?_
      obtain rfl := List.mem_singleton.mp hid
      exact Held.mem_insert.mpr (.inl rfl)
  | finished =>
    obtain ⟨h₀, ⟨-, hctx⟩, hstack⟩ := hm
    exact secure_done h₀ hstack (.refl hsound) fun _ hr => by cases hr; exact hctx
  | turn h =>
    obtain ⟨h₀, hready, hstack⟩ := hm
    exact secure_of_frame h₀ hstack (.refl hsound) (fun _ hid => hid) hready.1 hready
  | @performed s' held t ctx cmd fs s next p replaced ha h =>
    obtain ⟨h₀, ⟨hinvoker, hctx⟩, hstack⟩ := hm
    have hp : Lands (· ∈ held) s _ (t.perform s ctx p) :=
      Thread.lands_perform hsound hinvoker.hasContext hctx p
    rw [h] at hp
    obtain ⟨hev, hresult⟩ := lands_letGo hp.evolves (hp.result _ rfl) (ctx.refs ++ replaced.refs)
    exact secure_done h₀ hstack hev hresult
  | @failed s' held t ctx cmd fs s e p ha h =>
    obtain ⟨h₀, ⟨hinvoker, hctx⟩, hstack⟩ := hm
    have hp : Lands (· ∈ held) s _ (t.perform s ctx p) :=
      Thread.lands_perform hsound hinvoker.hasContext hctx p
    rw [h] at hp
    exact secure_done h₀ hstack hp.evolves fun _ hr => by cases hr
  | create ha =>
    obtain ⟨h₀, -, hstack⟩ := hm
    exact secure_of_kept h₀ hstack (.refl hsound) (fun _ hid => hid) trivial
  | dispatch h =>
    obtain ⟨h₀, hready, hstack⟩ := hm
    exact secure_of_kept h₀ hstack (.refl hsound) (fun _ hid => hid) hready
  | prepare ha h =>
    obtain ⟨h₀, ⟨hinvoker, hctx⟩, hstack⟩ := hm
    exact secure_of_kept h₀ hstack (.refl hsound) (fun _ hid => hid)
      ⟨hinvoker, hctx, fun a ha => absurd ha List.not_mem_nil⟩
  | @input held t ctx script args cs inputs fs s =>
    obtain ⟨h₀, ⟨hinvoker, hctx, hargs⟩, hstack⟩ := hm
    have hwider : ∀ id ∈ held,
        id ∈ (held.insertMany ctx.refs).insertMany (args.flatMap Context.refs) :=
      fun id hid => Held.wider _ id (Held.wider _ id hid)
    refine secure_of_frame h₀ hstack (.refl hsound) hwider ⟨hinvoker, ?_, fun a ha => ?_⟩
      ⟨hinvoker.mono hwider, Store.hasContext_none _⟩
    · exact hctx.guarded fun id hid =>
        Held.wider _ id (Held.mem_insertMany.mpr (.inr hid))
    · exact (hargs a ha).guarded fun id hid =>
        Held.mem_insertMany.mpr (.inr (List.mem_flatMap.mpr ⟨a, ha, hid⟩))
  | @invoke held t ctx script args fs s =>
    obtain ⟨h₀, ⟨hinvoker, hctx, hargs⟩, hstack⟩ := hm
    refine secure_of_kept h₀ hstack (.refl hsound) (fun _ hid => hid) ⟨?_, hargs⟩
    cases ctx with
    | none => exact hinvoker.hasContext
    | some o => exact hctx
  | tooDeep | cancelled | denied | noScript =>
    obtain ⟨h₀, -, hstack⟩ := hm
    exact secure_done h₀ hstack (.refl hsound) fun _ hr => by cases hr

theorem Passes.secure (h : Passes env m m') (hm : Secure base s₀ m) : Secure base s₀ m' :=
  h.invariant (fun hnext ih => hnext.secure ih) hm

/-- A run is secure from the start if the task is ready and holds the references `base`. -/
theorem secure_start {task : Task} {s : Store} (hs : s.Sound) (ready : task.Ready s)
    (hbase : ∀ id, base id → task.kept id) : Secure base s ⟨task, [], s⟩ :=
  ⟨.refl hs, ready, hbase⟩

/-- At the end of a run, what was held from the start is still there, and so is the result. -/
theorem ComesTo.lands {out : Outcome Context} (h : ComesTo env m out) (hm : Secure base s₀ m) :
    Lands base s₀ Store.HasContext out := by
  obtain ⟨r, s⟩ := out
  have hend : Secure base s₀ ⟨.done r, [], s⟩ := Passes.secure h hm
  refine ⟨hend.evolves, ?_⟩
  rintro ctx rfl
  exact hend.ready

/-- **The invoker of a thread that is alive is there.** -/
theorem Secure.has_invoker (h : Secure base s₀ m) {t : Thread} (ht : t ∈ m.threads)
    {o : ObjectRef} (ho : t.invoker = some o) : m.store.Has o := by
  obtain ⟨f, hf, halive⟩ := List.mem_filterMap.mp ht
  obtain ⟨kept, hready⟩ := h.stacked.ready_of_mem hf
  cases f with
  | commands | inputs | object => cases halive
  | thread held u =>
    cases halive
    exact (hready.2.2 o ho).1

/-- A thread that is left hands on an object only if its script declares a type, and then one that
satisfies it. -/
theorem ComesTo.handed_on {held : Held} {t : Thread} {r : Except Error Context} {s s' : Store}
    {v : ObjectRef} (h : ComesTo env ⟨.done r, [.thread held t], s⟩ (.ok (some v), s')) :
    ∃ expected, t.script.returns = some expected ∧ v.satisfies expected = true := by
  rcases Passes.cases_head h with heq | ⟨cancelled, m₁, hnext, hend⟩
  · cases heq
  · cases hnext with
    | abandon => exact absurd rfl (ComesTo.ne_error hend)
    | resume =>
      rw [Frame.resume] at hend
      split at hend
      · exact absurd rfl (ComesTo.ne_error hend)
      · rename_i hvalue
        cases hend.eq_of_end
        exact (Script.result_cases hvalue rfl).2

/-- **What a call gives back**, whoever is cancelled in the course of it: an object only if the
script declares a type, and then one that satisfies it. -/
theorem ComesTo.returns {held : Held} {c : Call} {s s' : Store} {v : ObjectRef}
    (h : ComesTo env ⟨.call held c, [], s⟩ (.ok (some v), s')) :
    ∃ expected, c.script.returns = some expected ∧ v.satisfies expected = true := by
  rcases Passes.cases_head h with heq | ⟨cancelled, m₁, hnext, hrest⟩
  · cases heq
  · cases hnext with
    | tooDeep | notEntered => exact absurd rfl (ComesTo.ne_error hrest)
    | entered hdepth he =>
      -- the commands come to something, which the frame of the thread hands on
      obtain ⟨inner, -, hleave⟩ := ComesTo.cut hrest
      obtain ⟨hscript, -, -⟩ := Thread.enter_eq_ok he
      rw [← hscript]
      exact hleave.handed_on

end Moment

end Steward
