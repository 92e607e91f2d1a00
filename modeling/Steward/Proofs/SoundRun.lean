/-
Sound runs: whatever a script does, it leaves a sound store behind.

Every part of a run takes a sound store, in which its context, its invoker and its arguments
are there, to a store that it `Evolves` into and, if it succeeds, to a context that is there
again.  `Lands` is this statement; it is proved of each part from its own parts:

* **`lands_perform`** — one primitive action;
* **`lands_runCommands`** — commands, and the inputs of calls, by recursion on the script;
* **`lands_callAt`** — whole calls, by induction on how deep they may still nest.

It makes no difference whether a run succeeds: a store that a failed run leaves behind is as
sound as any.  `callAt_returns` says what a call gives back, and needs none of this.
-/
import Steward.Execution.Run
import Steward.Proofs.SoundStore

namespace Steward

open Std (TreeSet)

/-- Whether the object a context refers to, if any, is there. -/
def Store.HasContext (s : Store) (ctx : Context) : Prop :=
  ∀ o, ctx = some o → s.Has o

/-- What comes of an action that starts in `s`: a store that `s` evolves into and, on
success, a result that is right for it. -/
structure Lands (kept : GroupId → Prop) (s : Store) (Q : Store → α → Prop) (r : Outcome α) :
    Prop where
  evolves : s.Evolves kept r.2
  result : ∀ a, r.1 = .ok a → Q r.2 a

theorem Lands.failed {kept : GroupId → Prop} {s s' : Store} {Q : Store → α → Prop}
    (h : s.Evolves kept s') (e : Error) : Lands kept s Q (.error e, s') := by
  refine ⟨h, ?_⟩
  intro a ha
  cases ha

/-- An object that is there is a context that is there. -/
theorem Lands.map_some {kept : GroupId → Prop} {s : Store} {r : Outcome ObjectRef}
    (h : Lands kept s Store.Has r) : Lands kept s Store.HasContext (r.1.map some, r.2) := by
  refine ⟨h.evolves, ?_⟩
  intro ctx hctx
  cases hr : r.1 with
  | error e => simp [hr, Except.map] at hctx
  | ok o =>
    simp only [hr, Except.map, Except.ok.injEq] at hctx
    rintro o' rfl
    cases hctx
    exact h.result o hr

/-- Whether a way of running calls leaves sound stores behind. -/
def Caller.Sound (call : Caller) : Prop :=
  ∀ held c s, s.Sound → s.HasContext c.invoker → (∀ a ∈ c.args, s.HasContext a) →
    Lands (· ∈ held) s Store.HasContext (call held c s)

/-! ### What is held -/

theorem Held.mem_insertMany {held : Held} {ids : List GroupId} {id : GroupId} :
    id ∈ (TreeSet.insertMany held ids : Held) ↔ id ∈ held ∨ id ∈ ids := by
  rw [TreeSet.mem_insertMany_list, List.contains_iff_mem]

/-- What is held stays so when more is. -/
theorem Held.wider {held : Held} (ids : List GroupId) :
    ∀ id ∈ held, id ∈ (TreeSet.insertMany held ids : Held) :=
  fun _ hid => mem_insertMany.mpr (.inl hid)

theorem Held.mem_insert {held : Held} {id other : GroupId} :
    id ∈ (held.insert other : Held) ↔ other = id ∨ id ∈ held := by
  rw [TreeSet.mem_insert, Nat.compare_eq_eq]

theorem Context.mem_refs {ctx : Context} {id : GroupId} :
    id ∈ ctx.refs ↔ ∃ o, ctx = some o ∧ o.group = id := by
  rw [refs, Option.mem_toList, Option.map_eq_some_iff]

theorem Context.group_mem_refs {ctx : Context} {o : ObjectRef} (h : ctx = some o) :
    o.group ∈ ctx.refs := by
  subst h
  exact List.mem_singleton_self _

namespace Store

theorem hasContext_none (s : Store) : s.HasContext none := by
  intro o h
  cases h

theorem hasContext_some {s : Store} {o : ObjectRef} (h : s.Has o) : s.HasContext (some o) := by
  intro o' h'
  cases h'
  exact h

/-- A context whose object is kept is still there. -/
theorem Evolves.hasContext {kept : GroupId → Prop} {s s' : Store} (h : s.Evolves kept s')
    {ctx : Context} (hctx : s.HasContext ctx) (hk : ∀ o, ctx = some o → kept o.group) :
    s'.HasContext ctx :=
  fun o ho => h.keeps (hk o ho) (hctx o ho)

end Store

/-! ### Views -/

namespace View

theorem get_cases {v : View} {s : Store} {key : Key} {value : Option ObjectRef}
    (h : v.get s key = .ok value) : ∃ id, s.get id key = .ok value := by
  obtain ⟨owner, -, h⟩ := bind_eq_ok_iff.mp h
  cases owner with
  | none => cases h
  | some id => exact ⟨id, h⟩

theorem set_cases {v : View} {s s' : Store} {key : Key} {value old : Option ObjectRef}
    (h : v.set s key value = .ok (old, s')) : ∃ id, s.set id key value = .ok (old, s') := by
  obtain ⟨owner, -, h⟩ := bind_eq_ok_iff.mp h
  cases owner with
  | none => cases h
  | some id => exact ⟨id, h⟩

/-- A view adds slots to the group that takes them. -/
theorem add_target {v : View} {s s' : Store} {key : Key} {value : Option ObjectRef} {added : Bool}
    (h : v.add s key value = .ok (added, s')) :
    s' = s ∨ ∃ id, v.target = some id ∧ s.add id key value = .ok (added, s') := by
  rw [add] at h
  split at h
  · cases h
  · rename_i target htarget
    obtain ⟨owner, -, h⟩ := bind_eq_ok_iff.mp h
    cases owner with
    | none => exact .inr ⟨target, htarget, h⟩
    | some id =>
      cases h
      exact .inl rfl

theorem add_cases {v : View} {s s' : Store} {key : Key} {value : Option ObjectRef} {added : Bool}
    (h : v.add s key value = .ok (added, s')) :
    s' = s ∨ ∃ id, s.add id key value = .ok (added, s') := by
  rcases add_target h with hs | ⟨id, -, h⟩
  · exact .inl hs
  · exact .inr ⟨id, h⟩

end View

/-! ### Primitive actions -/

namespace Thread

variable {s : Store} {kept : GroupId → Prop}

theorem hasContext_follow (h : s.Sound) (t : Thread) (path : List String) {fields : List String}
    {current ctx : Context} (hcur : s.HasContext current)
    (hfollow : t.follow s path current fields = .ok ctx) : s.HasContext ctx := by
  induction fields generalizing current with
  | nil =>
    cases hfollow
    exact hcur
  | cons field fields ih =>
    cases current with
    | none => cases hfollow
    | some o =>
      rw [follow] at hfollow
      split at hfollow
      · cases hfollow
      · split at hfollow
        · cases hfollow
        · rename_i hread
          refine ih ?_ hfollow
          rintro o rfl
          exact h.has_of_get hread

theorem hasContext_lookup (h : s.Sound) (t : Thread) {path : List String} {ctx next : Context}
    (hctx : s.HasContext ctx) (hlookup : t.lookup s path ctx = .ok next) :
    s.HasContext next := by
  cases ctx with
  | some o => exact hasContext_follow h t path hctx hlookup
  | none =>
    cases path with
    | nil => cases hlookup
    | cons first fields =>
      obtain ⟨key, -, hlookup⟩ := bind_eq_ok_iff.mp hlookup
      obtain ⟨value, hget, hlookup⟩ := bind_eq_ok_iff.mp hlookup
      refine hasContext_follow h t _ ?_ hlookup
      rintro o rfl
      obtain ⟨id, hget⟩ := View.get_cases hget
      exact h.has_of_get hget

/-- An assignment sets one slot. -/
theorem assign_cases {t : Thread} {s' : Store} {target : List String} {value replaced : Context}
    (h : t.assign s target value = .ok (replaced, s')) :
    ∃ id key, s.set id key value = .ok (replaced, s') := by
  rw [assign] at h
  split at h
  · cases h
  · split at h
    · obtain ⟨key, -, h⟩ := bind_eq_ok_iff.mp h
      obtain ⟨id, h⟩ := View.set_cases h
      exact ⟨id, key, h⟩
    · obtain ⟨owner, -, h⟩ := bind_eq_ok_iff.mp h
      cases owner with
      | none => cases h
      | some o =>
        obtain ⟨key, -, h⟩ := bind_eq_ok_iff.mp h
        exact ⟨o.group, key, h⟩

/-- Binding a payload makes an object that has it, or nothing. -/
theorem lands_bind (h : s.Sound) (type : ObjectType) (value : Payload) :
    Lands kept s Store.Has (s.bind type value) := by
  have hinst : s.Evolves kept (s.instantiate type).2 := Store.evolves_instantiate h type
  have hhas : (s.instantiate type).2.Has (s.instantiate type).1 := Store.has_instantiate type
  rw [Store.bind]
  -- all that matters of the new object is that it is there
  generalize s.instantiate type = made at hinst hhas
  obtain ⟨o, s₁⟩ := made
  dsimp only at hinst hhas ⊢
  split
  · rename_i s₂ hset
    refine ⟨hinst.trans (Store.evolves_setPayload hinst.sound hhas hset), ?_⟩
    intro o' ho
    cases ho
    exact (Store.has_setPayload_iff hset).mpr hhas
  · refine ⟨Store.evolves_skip h, ?_⟩
    intro o' ho
    cases ho

/-- A primitive action leaves everything that is there, and a context that is there. -/
theorem lands_perform (h : s.Sound) {t : Thread} {ctx : Context}
    (hinv : s.HasContext t.invoker) (hctx : s.HasContext ctx) (p : Primitive) :
    Lands kept s (fun s' next => s'.HasContext next.1) (t.perform s ctx p) := by
  -- most actions that fail, and those that only look, leave the store as it was
  have same : ∀ {r : Except Error (Context × Context)},
      (∀ next, r = .ok next → s.HasContext next.1) →
      Lands kept s (fun s' next => s'.HasContext next.1) (r, s) := fun hr => ⟨.refl h, hr⟩
  have failed : ∀ e, Lands kept s (fun s' next => s'.HasContext next.1)
      (Except.error (α := Context × Context) e, s) := fun e => same fun next hn => by cases hn
  cases p with
  | declare name type =>
    rw [perform]
    split
    · rename_i added s' hadd
      have hev : s.Evolves (fun _ => True) s' := by
        rcases View.add_cases hadd with rfl | ⟨id, hadd⟩
        · exact .refl h
        · exact Store.evolves_add h (fun v hv => by cases hv) hadd
      refine ⟨hev.mono fun _ _ => trivial, ?_⟩
      intro next hn
      cases hn
      exact hev.hasContext hctx fun _ _ => trivial
    · exact failed _
  | assign target =>
    rw [perform]
    split
    · rename_i replaced s' hset
      obtain ⟨id, key, hset⟩ := assign_cases hset
      have hev : s.Evolves (fun _ => True) s' := Store.evolves_set h hctx hset
      refine ⟨hev.mono fun _ _ => trivial, ?_⟩
      intro next hn
      cases hn
      exact hev.hasContext hctx fun _ _ => trivial
    · exact failed _
  | lookup path =>
    rw [perform]
    split
    · rename_i next hlookup
      refine same fun n hn => ?_
      cases hn
      exact hasContext_lookup h t hctx hlookup
    · exact failed _
  | self =>
    refine same fun n hn => ?_
    cases hn
    exact hinv
  | native type value =>
    have hbind : Lands kept s Store.Has (s.bind type value) := lands_bind h type value
    rw [perform]
    split
    · rename_i o s' heq
      rw [heq] at hbind
      refine ⟨hbind.evolves, ?_⟩
      intro next hn
      cases hn
      exact Store.hasContext_some (hbind.result o rfl)
    · rename_i e s' heq
      rw [heq] at hbind
      refine ⟨hbind.evolves, ?_⟩
      intro next hn
      cases hn
  | clear =>
    refine same fun n hn => ?_
    cases hn
    exact s.hasContext_none

end Thread

/-! ### Commands -/

section Commands

variable {call : Caller} {env : Env} {t : Thread}

/-- A context that is there stays so when all but it and what is held is let go. -/
theorem lands_letGo {held : Held} {s s' : Store} {ctx : Context}
    (hev : s.Evolves (· ∈ held) s') (hctx : s'.HasContext ctx) (dropped : List GroupId) :
    Lands (· ∈ held) s Store.HasContext
      (.ok ctx, s'.letGo (held.insertMany ctx.refs) dropped) := by
  have hgo := Store.evolves_letGo hev.sound (held.insertMany ctx.refs) dropped
  refine ⟨hev.trans (hgo.mono (Held.wider ctx.refs)), ?_⟩
  intro a ha
  cases ha
  exact hgo.hasContext hctx fun o ho => Held.mem_insertMany.mpr (.inr (Context.group_mem_refs ho))

/-- An object and the run of its constructor. -/
theorem lands_construct (hcall : call.Sound) {held : Held} {s : Store} (h : s.Sound)
    (type : ObjectType) (scope : Scope) :
    Lands (· ∈ held) s Store.Has (construct call env held type scope s) := by
  have hinst : s.Evolves (· ∈ held) (s.instantiate type).2 := Store.evolves_instantiate h type
  have hhas : (s.instantiate type).2.Has (s.instantiate type).1 := Store.has_instantiate type
  rw [construct]
  generalize s.instantiate type = made at hinst hhas
  obtain ⟨o, s₁⟩ := made
  dsimp only at hinst hhas ⊢
  split
  · refine ⟨hinst, ?_⟩
    intro o' ho
    cases ho
    exact hhas
  · split
    · exact .failed hinst _
    · rename_i script _
      have hrun := hcall (held.insert o.group) { script, invoker := some o, scope } s₁ hinst.sound
        (Store.hasContext_some hhas) (fun a ha => absurd ha List.not_mem_nil)
      have wider : ∀ id, id ∈ held → id ∈ held.insert o.group := fun id hid =>
        Held.mem_insert.mpr (.inr hid)
      split
      · rename_i e s₂ heq
        rw [heq] at hrun
        exact .failed (hinst.trans (hrun.evolves.mono wider)) e
      · rename_i result s₂ heq
        rw [heq] at hrun
        -- the object is held while the constructor runs and while its result is let go
        have hgo := Store.evolves_letGo hrun.evolves.sound (held.insert o.group) result.refs
        have hkept := hrun.evolves.trans hgo
        refine ⟨hinst.trans (hkept.mono wider), ?_⟩
        intro o' ho
        cases ho
        exact hkept.keeps (Held.mem_insert.mpr (.inl rfl)) hhas

mutual

theorem lands_runAction (hcall : call.Sound) {held : Held} {s : Store} {ctx : Context}
    (h : s.Sound) (hinv : s.HasContext t.invoker) (hheld : ∀ o, t.invoker = some o → o.group ∈ held)
    (hctx : s.HasContext ctx) :
    ∀ action, Lands (· ∈ held) s Store.HasContext (runAction call env held t s ctx action)
  | .primitive p => by
    have hp : Lands (· ∈ held) s (fun s' next => s'.HasContext next.1) (t.perform s ctx p) :=
      Thread.lands_perform h hinv hctx p
    rw [runAction]
    split
    · rename_i next replaced s₁ heq
      rw [heq] at hp
      exact lands_letGo hp.evolves (hp.result _ rfl) _
    · rename_i e s₁ heq
      rw [heq] at hp
      exact .failed hp.evolves e
  | .create type => by
    have hc : Lands (· ∈ held.insertMany ctx.refs) s Store.Has
        (construct call env (held.insertMany ctx.refs) type t.scope.child s) :=
      lands_construct hcall h type t.scope.child
    rw [runAction]
    split
    · rename_i o s₁ heq
      rw [heq] at hc
      exact lands_letGo (hc.evolves.mono (Held.wider ctx.refs))
        (Store.hasContext_some (hc.result o rfl)) ctx.refs
    · rename_i e s₁ heq
      rw [heq] at hc
      exact .failed (hc.evolves.mono (Held.wider ctx.refs)) e
  | .invoke inputs callee => by
    have wider : ∀ id ∈ held, id ∈ held.insertMany ctx.refs := Held.wider ctx.refs
    have hin : Lands (· ∈ held.insertMany ctx.refs) s (fun s' as => ∀ a ∈ as, s'.HasContext a)
        (runInputs call env (held.insertMany ctx.refs) t s [] inputs) :=
      lands_runInputs hcall h hinv (fun o ho => wider _ (hheld o ho))
        (fun a ha => absurd ha List.not_mem_nil) inputs
    rw [runAction]
    split
    · exact .failed (.refl h) _
    · rename_i script _
      split
      · rename_i e s₁ heq
        rw [heq] at hin
        exact .failed (hin.evolves.mono wider) e
      · rename_i args s₁ heq
        rw [heq] at hin
        have hev := hin.evolves
        -- the context was held while the inputs were computed, the invoker is so anyway
        have hinvoker : s₁.HasContext (ctx.or t.invoker) := by
          cases ctx with
          | none => exact hev.hasContext hinv fun o ho => wider _ (hheld o ho)
          | some o =>
            exact hev.hasContext hctx fun o' ho =>
              Held.mem_insertMany.mpr (.inr (Context.group_mem_refs ho))
        have hrun := hcall held { script, invoker := ctx.or t.invoker, args, scope := t.scope.child }
          s₁ hev.sound hinvoker (hin.result args rfl)
        exact ⟨(hev.mono wider).trans hrun.evolves, hrun.result⟩

theorem lands_runCommand (hcall : call.Sound) {held : Held} {s : Store} {ctx : Context}
    (h : s.Sound) (hinv : s.HasContext t.invoker) (hheld : ∀ o, t.invoker = some o → o.group ∈ held)
    (hctx : s.HasContext ctx) :
    ∀ c, Lands (· ∈ held) s Store.HasContext (runCommand call env held t s ctx c)
  | ⟨action, requires⟩ => by
    rw [runCommand]
    split
    · exact lands_runAction hcall h hinv hheld hctx action
    · exact .failed (.refl h) _

theorem lands_runCommands (hcall : call.Sound) {held : Held} {s : Store} {ctx : Context}
    (h : s.Sound) (hinv : s.HasContext t.invoker)
    (hheld : ∀ o, t.invoker = some o → o.group ∈ held) (hctx : s.HasContext ctx) :
    ∀ completed cs,
      Lands (· ∈ held) s Store.HasContext (runCommands call env held t s completed ctx cs)
  | _, [] => by
    refine ⟨.refl h, ?_⟩
    intro a ha
    cases ha
    exact hctx
  | completed, c :: cs => by
    have hc := lands_runCommand hcall h hinv hheld hctx c
    rw [runCommands]
    split
    · exact .failed (.refl h) _
    · split
      · rename_i e s₁ heq
        rw [heq] at hc
        exact .failed hc.evolves e
      · rename_i next s₁ heq
        rw [heq] at hc
        have hrest := lands_runCommands hcall hc.evolves.sound
          (hc.evolves.hasContext hinv hheld) hheld (hc.result next rfl) (completed + 1) cs
        exact ⟨hc.evolves.trans hrest.evolves, hrest.result⟩

theorem lands_runInputs (hcall : call.Sound) {held : Held} {s : Store} {args : List Context}
    (h : s.Sound) (hinv : s.HasContext t.invoker)
    (hheld : ∀ o, t.invoker = some o → o.group ∈ held) (hargs : ∀ a ∈ args, s.HasContext a) :
    ∀ inputs, Lands (· ∈ held) s (fun s' as => ∀ a ∈ as, s'.HasContext a)
      (runInputs call env held t s args inputs)
  | [] => by
    refine ⟨.refl h, ?_⟩
    intro as has
    cases has
    exact hargs
  | input :: inputs => by
    have wider : ∀ id ∈ held, id ∈ held.insertMany (args.flatMap Context.refs) := Held.wider _
    have hc := lands_runCommands hcall h hinv (fun o ho => wider _ (hheld o ho))
      s.hasContext_none 0 input
    rw [runInputs]
    split
    · rename_i e s₁ heq
      rw [heq] at hc
      exact .failed (hc.evolves.mono wider) e
    · rename_i next s₁ heq
      rw [heq] at hc
      have hall : ∀ a ∈ args ++ [next], s₁.HasContext a := by
        intro a ha
        rcases List.mem_append.mp ha with ha | ha
        · -- the results so far are held while the next one is computed
          refine hc.evolves.hasContext (hargs a ha) fun o ho => ?_
          exact Held.mem_insertMany.mpr
            (.inr (List.mem_flatMap.mpr ⟨a, ha, Context.group_mem_refs ho⟩))
        · obtain rfl := List.mem_singleton.mp ha
          exact hc.result a rfl
      have hrest := lands_runInputs hcall hc.evolves.sound
        (hc.evolves.hasContext hinv fun o ho => wider _ (hheld o ho)) hheld hall inputs
      exact ⟨(hc.evolves.mono wider).trans hrest.evolves, hrest.result⟩

end

end Commands

/-! ### Calls -/

/-- Whether a number was given out, and not to an object. -/
def Store.Spare (s : Store) (id : GroupId) : Prop :=
  id < s.next ∧ s.objectAt? id = none

theorem Store.Evolves.spare {kept : GroupId → Prop} {s s' : Store} (h : s.Evolves kept s')
    {id : GroupId} (hid : s.Spare id) : s'.Spare id := by
  refine ⟨Nat.lt_of_lt_of_le hid.1 h.next_le, ?_⟩
  cases ho : s'.objectAt? id with
  | none => rfl
  | some x =>
    obtain ⟨p, hp⟩ := h.object_old hid.1 ho
    rw [hid.2] at hp
    cases hp

theorem Store.spare_allocate {s : Store} (h : s.Sound) {g : Group} :
    (s.allocate g).2.Spare (s.allocate g).1 := by
  refine ⟨Nat.lt_succ_self s.next, ?_⟩
  change (s.skip.write s.next g).objectAt? s.next = none
  rw [objectAt?_write]
  cases ho : s.skip.objectAt? s.next with
  | none => rfl
  | some x => exact absurd (h.object_lt ho).2 (Nat.lt_irrefl _)

/-- Starting a call makes two groups, which are not those of objects, and nothing else. -/
theorem Thread.lands_enter {kept : GroupId → Prop} {s : Store} (h : s.Sound) {script : Script}
    {invoker : Context} {args : List Context} (hargs : ∀ a ∈ args, s.HasContext a) {scope : Scope} :
    Lands kept s (fun s' t => t.invoker = invoker ∧ s'.Spare t.inputs ∧ s'.Spare t.locals)
      (Thread.enter s script invoker args scope) := by
  rw [Thread.enter]
  split
  · exact .failed (.refl h) _
  · split
    · exact .failed (Store.evolves_skip h) _
    · rename_i g hbind
      obtain ⟨hfits, -, hvalues⟩ := Thread.bindArguments_cases (Group.fits_ofKeys _ _) hbind
      have hpresent : ∀ v ∈ g.values, s.Has v := by
        intro v hv
        rcases hvalues v hv with hv | ⟨key, hkey⟩
        · simp [Group.values_ofKeys] at hv
        · exact hargs _ (List.of_mem_zip hkey).2 v rfl
      have hin : s.Evolves kept (s.allocate g).2 := Store.evolves_allocate h hfits hpresent
      have hloc : (s.allocate g).2.Evolves kept ((s.allocate g).2.allocate ⟨.locals, []⟩).2 :=
        Store.evolves_allocate hin.sound (fun x hx => absurd hx List.not_mem_nil)
          (fun v hv => absurd hv List.not_mem_nil)
      refine ⟨hin.trans hloc, ?_⟩
      intro t ht
      cases ht
      exact ⟨rfl, hloc.spare (Store.spare_allocate h), Store.spare_allocate hin.sound⟩

/-- A call that ends gives its two groups back. -/
theorem Thread.evolves_leave {kept : GroupId → Prop} {s : Store} (h : s.Sound) {t : Thread}
    (hin : s.Spare t.inputs) (hloc : s.Spare t.locals) : s.Evolves kept (t.leave s) := by
  have hrel : s.Evolves kept (s.release t.inputs) := Store.evolves_release h hin.2
  exact hrel.trans (Store.evolves_release hrel.sound (hrel.spare hloc).2)

/-- The object a script gives back is the last context. -/
theorem Script.result_cases {script : Script} {ctx result : Context}
    (h : script.result ctx = .ok result) {v : ObjectRef} (hv : result = some v) :
    ctx = some v ∧ ∃ expected, script.returns = some expected ∧ v.satisfies expected = true := by
  subst hv
  rw [result] at h
  split at h
  · cases h
  · rename_i expected hret
    split at h
    · cases h
    · split at h
      · rename_i hsat
        cases h
        exact ⟨rfl, expected, hret, hsat⟩
      · cases h

theorem lands_runCall {call : Caller} (hcall : call.Sound) (env : Env) :
    Caller.Sound (runCall call env) := by
  intro held c s h hinv hargs
  have henter : Lands (fun _ => True) s
      (fun s' t => t.invoker = c.invoker ∧ s'.Spare t.inputs ∧ s'.Spare t.locals)
      (Thread.enter s c.script c.invoker c.args c.scope) := Thread.lands_enter h hargs
  rw [runCall]
  split
  · rename_i e s₁ heq
    rw [heq] at henter
    exact .failed (henter.evolves.mono fun _ _ => trivial) e
  · rename_i t s₁ heq
    rw [heq] at henter
    obtain ⟨htinv, hin, hloc⟩ := henter.result t rfl
    obtain ⟨hev, -⟩ := henter
    dsimp only at hin hloc hev ⊢
    generalize hins : held.insertMany c.invoker.refs = inside
    have wider : ∀ id ∈ held, id ∈ inside := hins ▸ Held.wider c.invoker.refs
    have hheld : ∀ o, c.invoker = some o → o.group ∈ inside := fun o ho =>
      hins ▸ Held.mem_insertMany.mpr (.inr (Context.group_mem_refs ho))
    -- arguments that went nowhere are let go before the first command
    have hgo := Store.evolves_letGo hev.sound inside (c.args.flatMap Context.refs)
    have hinv₂ := hgo.hasContext (hev.hasContext hinv fun _ _ => trivial) hheld
    have hrun : Lands (· ∈ inside) _ Store.HasContext
        (runCommands call env inside t _ 0 none c.script.commands) :=
      lands_runCommands hcall hgo.sound (by rwa [htinv]) (by rwa [htinv])
        (Store.hasContext_none _) 0 c.script.commands
    -- when its commands are done, the groups of the thread are still not those of objects
    have hleave : ∀ {s₃ : Store}, s₁.Evolves (· ∈ inside) s₃ →
        s.Evolves (· ∈ held) (t.leave s₃) := by
      intro s₃ h₁₃
      have hend : s₃.Evolves (· ∈ held) (t.leave s₃) :=
        Thread.evolves_leave h₁₃.sound (h₁₃.spare hin) (h₁₃.spare hloc)
      exact ((hev.mono fun _ _ => trivial).trans (h₁₃.mono wider)).trans hend
    split
    · rename_i e s₃ heq'
      rw [heq'] at hrun
      exact .failed (hleave (hgo.trans hrun.evolves)) e
    · rename_i ctx s₃ heq'
      rw [heq'] at hrun
      split
      · exact .failed (hleave (hgo.trans hrun.evolves)) _
      · rename_i result hres
        refine lands_letGo (hleave (hgo.trans hrun.evolves)) ?_ _
        intro o ho
        -- the result outlives the groups of the thread, which are not its own
        have hhas := hrun.result ctx rfl o (Script.result_cases hres ho).1
        simpa only [Store.Has, Thread.leave, Store.objectAt?_release] using hhas

/-- **Calls leave sound stores behind**, however deep they may nest. -/
theorem lands_callAt (env : Env) (room : Nat) : Caller.Sound (callAt env room) := by
  induction room with
  | zero =>
    intro held c s h _ _
    exact .failed (.refl h) _
  | succ room ih =>
    -- the calls made by a call have less room, and nothing else is known of them
    exact lands_runCall ih env

/-- **What a call gives back**: an object only if the script declares a type, and then one
that satisfies it. -/
theorem callAt_returns {env : Env} {room : Nat} {held : Held} {c : Call} {s s' : Store}
    {v : ObjectRef} (h : callAt env room held c s = (.ok (some v), s')) :
    ∃ expected, c.script.returns = some expected ∧ v.satisfies expected = true := by
  cases room with
  | zero => cases h
  | succ room =>
    rw [callAt, runCall] at h
    split at h
    · cases h
    · dsimp only at h
      split at h
      · cases h
      · split at h
        · cases h
        · rename_i hres
          cases h
          exact (Script.result_cases hres rfl).2

end Steward
