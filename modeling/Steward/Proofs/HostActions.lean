/-
Host actions: rules to reason about them.

A step of a session reads first, then changes something and shows what came of it.  Two
statements are enough for all of this:

* **`Host.Reads`** — the action changes nothing but the number that comes next, and its
  result, if it has one, is right;
* **`Host.Leaves`** — whatever comes of the action, the session it leaves behind is right.

Each has a rule for every way in which actions are put together, so that a step is gone
through from its start to its end without opening the monad.  The rules for the actions
that only read are proved here once, for every step that uses them.

Besides, what is read by name leads to no group that the session does not mention anyway
(`Session.Mentions`): the number of a group cannot be made up.

Design notes: numbers are drawn even by steps that fail, which is why `Reads` lets them go
up.  The tables of `s.numbered n` are those of `s`, so what was found in a table
before a number was drawn is found there afterwards.
-/
import Steward.Proofs.Numbers
import Steward.Proofs.Tables
import Steward.Session.Run

namespace Steward

namespace Session

/-- The session with another number to come next. -/
def numbered (s : Session) (n : Nat) : Session :=
  { s with fresh := n }

/-- Whether a context is one of the objects under a name, or none. -/
def Knows (s : Session) (ctx : Context) : Prop :=
  ∀ o, ctx = some o → o ∈ s.objects.values

/-- Whether a call refers to objects under a name only. -/
def KnowsCall (s : Session) (c : Call) : Prop :=
  s.Knows c.invoker ∧ ∀ a ∈ c.args, s.Knows a

/-- Whether a number of a group stands somewhere in the session, live or not. -/
def Mentions (s : Session) (id : GroupId) : Prop :=
  (∃ o ∈ s.objects.values, o.group = id) ∨ id ∈ s.groups.values ∨ id ∈ s.ids.values ∨
    (∃ d ∈ s.drafts.values, d.library.Mentions id) ∨ (∃ l ∈ s.libraries.values, l.Mentions id) ∨
    (∃ l ∈ s.catalog.libraries, l.Mentions id) ∨ (∃ x ∈ s.scripts.values, x.Mentions id) ∨
    (∃ t ∈ s.threads.values, t.Mentions id) ∨ ∃ p ∈ s.pendings.values, p.call.Mentions id

/-- The definitions under a name. -/
def definitions (s : Session) : List Definition :=
  s.types.values.map .type ++ s.contracts.values.map .contract

end Session

namespace Host

variable {α β : Type} {s : Session}

/-- An action that changes nothing but the number that comes next, with a result that is
right if there is one. -/
structure Reads (s : Session) (m : Host α) (R : α → Prop) : Prop where
  keeps : ∃ n, s.fresh ≤ n ∧ (m.run.run s).2 = s.numbered n
  result : ∀ a, (m.run.run s).1 = .ok a → R a

/-- An action that leaves a session behind that is right, whether it works or not. -/
def Leaves (s : Session) (m : Host α) (Q : Session → Prop) : Prop :=
  Q (m.run.run s).2

/-- Two actions one after the other. -/
theorem run_bind (m : Host α) (f : α → Host β) (s : Session) :
    (m >>= f).run.run s =
      match m.run.run s with
      | (.ok a, s') => (f a).run.run s'
      | (.error e, s') => (.error e, s') := by
  change (match m.run.run s with | (r, s') => (ExceptT.bindCont f r).run s') = _
  cases m.run.run s with
  | mk r s' => cases r <;> rfl

theorem run_find (category : Category) (table : Session → Table α) (name : String) (s : Session) :
    (find category table name).run.run s =
      match (table s).find? name with
      | some a => (.ok a, s)
      | none => (.error (.noHandle category name), s) := by
  change ((match (table s).find? name with
    | some a => pure a
    | none => fail (.noHandle category name) : Host α).run.run s) = _
  cases (table s).find? name with
  | none => rfl
  | some a => rfl

theorem run_needOpen (s : Session) :
    needOpen.run.run s = if s.isOpen then (.ok (), s) else (.error .closed, s) := by
  change ((if s.isOpen then pure () else fail .closed : Host Unit).run.run s) = _
  cases s.isOpen with
  | true => rfl
  | false => rfl

/-! ### Actions that only read -/

theorem reads_pure {a : α} {R : α → Prop} (h : R a) : Reads s (pure a) R where
  keeps := ⟨s.fresh, Nat.le_refl _, rfl⟩
  result b hb := by
    cases hb
    exact h

theorem reads_fail {fault : Fault} {R : α → Prop} : Reads s (fail fault) R where
  keeps := ⟨s.fresh, Nat.le_refl _, rfl⟩
  result b hb := by cases hb

theorem reads_get : Reads s (getThe Session) (· = s) where
  keeps := ⟨s.fresh, Nat.le_refl _, rfl⟩
  result b hb := by
    cases hb
    rfl

theorem reads_fresh : Reads s fresh fun _ => True where
  keeps := ⟨s.fresh + 1, Nat.le_succ _, rfl⟩
  result _ _ := trivial

theorem Reads.mono {m : Host α} {R R' : α → Prop} (h : Reads s m R) (hR : ∀ a, R a → R' a) :
    Reads s m R' :=
  ⟨h.keeps, fun a ha => hR a (h.result a ha)⟩

theorem reads_bind {m : Host α} {f : α → Host β} {R : α → Prop} {R' : β → Prop}
    (hm : Reads s m R)
    (hf : ∀ n a, s.fresh ≤ n → R a → Reads (s.numbered n) (f a) R') :
    Reads s (m >>= f) R' := by
  obtain ⟨⟨n, hn, hs⟩, hR⟩ := hm
  generalize hr : m.run.run s = r at hs hR
  obtain ⟨r, s'⟩ := r
  obtain rfl : s' = s.numbered n := hs
  cases r with
  | error e =>
    -- the rest is not done, but the numbers drawn so far are gone
    refine ⟨⟨n, hn, ?_⟩, ?_⟩
    · rw [run_bind, hr]
    · intro b hb
      rw [run_bind, hr] at hb
      cases hb
  | ok a =>
    obtain ⟨⟨n', hn', hs'⟩, hR'⟩ := hf n a hn (hR a rfl)
    refine ⟨⟨n', Nat.le_trans hn hn', ?_⟩, ?_⟩
    · rw [run_bind, hr]
      exact hs'
    · intro b hb
      rw [run_bind, hr] at hb
      exact hR' b hb

theorem reads_map {m : Host α} {f : α → β} {R : β → Prop} (hm : Reads s m fun a => R (f a)) :
    Reads s (f <$> m) R := by
  rw [← bind_pure_comp]
  exact reads_bind hm fun n a _ ha => reads_pure ha

theorem reads_ofResult {r : Except Error α} : Reads s (ofResult r) (r = .ok ·) := by
  cases r with
  | error e => exact reads_fail
  | ok a => exact reads_pure rfl

theorem reads_find {category : Category} {table : Session → Table α} {name : String} :
    Reads s (find category table name) ((table s).find? name = some ·) := by
  refine reads_bind reads_get ?_
  rintro n t hn rfl
  split
  · rename_i a ha
    exact reads_pure ha
  · exact reads_fail

theorem reads_needOpen : Reads s needOpen fun _ => s.isOpen = true := by
  refine reads_bind reads_get ?_
  rintro n t hn rfl
  split
  · rename_i hopen
    exact reads_pure hopen
  · exact reads_fail

theorem reads_mapM {f : α → Host β} {R : β → Prop} {xs : List α}
    (h : ∀ n, ∀ x ∈ xs, Reads (s.numbered n) (f x) R) :
    Reads s (xs.mapM f) fun ys => ∀ y ∈ ys, R y := by
  induction xs generalizing s with
  | nil => exact reads_pure fun y hy => absurd hy List.not_mem_nil
  | cons x xs ih =>
    rw [List.mapM_cons]
    -- the hypothesis is about all numbers because each element may draw some
    refine reads_bind (h s.fresh x List.mem_cons_self) fun n y hn hy => ?_
    refine reads_bind (ih fun n x hx => h n x (List.mem_cons_of_mem _ hx)) fun n' ys hn' hys => ?_
    refine reads_pure ?_
    intro z hz
    rcases List.mem_cons.mp hz with rfl | hz
    · exact hy
    · exact hys z hz

theorem reads_mapM_option {f : α → Host β} {R : β → Prop} {x : Option α}
    (h : ∀ x, Reads s (f x) R) : Reads s (x.mapM f) fun y => ∀ b, y = some b → R b := by
  cases x with
  | none => exact reads_pure fun b hb => by cases hb
  | some x =>
    refine reads_map ((h x).mono fun b hb c hc => ?_)
    cases hc
    exact hb

/-! ### What the steps read -/

theorem reads_readName {text : String} : Reads s (readName text) fun _ => True :=
  reads_ofResult.mono fun _ _ => trivial

theorem reads_readKey {text : String × String} : Reads s (readKey text) fun _ => True :=
  reads_bind reads_readName fun _ _ _ _ => reads_pure trivial

theorem reads_makePayload {literal : Literal} : Reads s (makePayload literal) fun _ => True :=
  reads_bind reads_fresh fun _ _ _ _ => reads_pure trivial

theorem reads_findContext {name : Option String} : Reads s (findContext name) s.Knows := by
  cases name with
  | none => exact reads_pure fun o ho => by cases ho
  | some name =>
    refine reads_map (reads_find.mono fun o ho o' ho' => ?_)
    cases ho'
    exact Table.mem_values_of_find? ho

theorem reads_findDefinition {ref : DefinitionRef} :
    Reads s (findDefinition ref) (· ∈ s.definitions) := by
  cases ref with
  | type name =>
    refine reads_map (reads_find.mono fun t ht => List.mem_append_left _ ?_)
    exact List.mem_map_of_mem (Table.mem_values_of_find? ht)
  | contract name =>
    refine reads_map (reads_find.mono fun c hc => List.mem_append_right _ ?_)
    exact List.mem_map_of_mem (Table.mem_values_of_find? hc)

theorem reads_findGroup {ref : GroupRef} : Reads s (findGroup ref) s.Mentions := by
  cases ref with
  | group name => exact reads_find.mono fun _ h => .inr (.inl (Table.mem_values_of_find? h))
  | object name =>
    exact reads_map (reads_find.mono fun o ho => .inl ⟨o, Table.mem_values_of_find? ho, rfl⟩)
  | library name =>
    refine reads_map (reads_find.mono fun l hl => ?_)
    exact .inr (.inr (.inr (.inr (.inl
      ⟨l, Table.mem_values_of_find? hl, Library.mentions_iff.mpr (.inl (.inl rfl))⟩))))
  | builder name =>
    refine reads_map (reads_find.mono fun d hd => ?_)
    exact .inr (.inr (.inr (.inl
      ⟨d, Table.mem_values_of_find? hd, Library.mentions_iff.mpr (.inl (.inl rfl))⟩)))
  | locals thread =>
    refine reads_map (reads_find.mono fun t ht => ?_)
    exact .inr (.inr (.inr (.inr (.inr (.inr (.inr (.inl
      ⟨t, Table.mem_values_of_find? ht, .inr (.inr (.inr rfl))⟩)))))))
  | id name => exact reads_find.mono fun _ h => .inr (.inr (.inl (Table.mem_values_of_find? h)))

/-- A script under a name mentions what the session mentions. -/
theorem reads_findScript {name : String} :
    Reads s (findScript name) fun x => ∀ id, x.Mentions id → s.Mentions id :=
  reads_find.mono fun x hx _ hid =>
    .inr (.inr (.inr (.inr (.inr (.inr (.inl ⟨x, Table.mem_values_of_find? hx, hid⟩))))))

theorem reads_findAccess {ref : AccessRef} : Reads s (findAccess ref) fun _ => True := by
  cases ref with
  | group name => exact reads_map (reads_find.mono fun _ _ => trivial)
  | view name => exact reads_map (reads_find.mono fun _ _ => trivial)
  | thread name => exact reads_bind reads_find fun _ _ _ _ => reads_pure trivial

theorem reads_findToken {name : String} : Reads s (findToken name) fun _ => True :=
  reads_find.mono fun _ _ => trivial

theorem reads_readScope {scope : ScopeText} :
    Reads s (readScope scope) fun sc => ∀ id, sc.context = some id → s.Mentions id := by
  refine reads_bind (reads_mapM_option fun _ => reads_findToken) fun _ _ _ _ => ?_
  refine reads_bind (reads_mapM_option fun _ => reads_findGroup) fun _ _ _ hcontext => ?_
  exact reads_pure hcontext

theorem reads_readCall {call : CallText} :
    Reads s (readCall call) fun c => ∀ scope, s.KnowsCall (c scope) ∧
      ((∀ id, scope.context = some id → s.Mentions id) →
        ∀ id, (c scope).Mentions id → s.Mentions id) := by
  refine reads_bind reads_findScript fun _ script _ hscript => ?_
  refine reads_bind reads_findContext fun _ invoker _ hinvoker => ?_
  refine reads_bind (reads_mapM (R := s.Knows) fun _ _ _ => reads_findContext)
    fun _ args _ hargs => ?_
  exact reads_pure fun scope => ⟨⟨hinvoker, hargs⟩, fun hscope id hid =>
    hid.elim (hscript id) (hscope id)⟩

theorem reads_readInvocation {i : InvocationText} :
    Reads s (readInvocation i) fun c =>
      s.KnowsCall c ∧ ∀ id, c.Mentions id → s.Mentions id := by
  refine reads_bind reads_readCall fun _ call _ hcall => ?_
  refine reads_bind (reads_mapM_option fun _ => reads_findGroup) fun _ _ _ hcontext => ?_
  refine reads_bind (reads_mapM_option fun _ => reads_findToken) fun _ _ _ _ => ?_
  exact reads_bind reads_get fun _ _ _ _ => reads_pure ⟨(hcall _).1, (hcall _).2 hcontext⟩

theorem reads_readCallee {callee : CalleeText} :
    Reads s (readCallee callee) fun c => ∀ id, c.Mentions id → s.Mentions id := by
  cases callee with
  | named name => exact reads_map (reads_readName.mono fun _ _ _ hid => hid.elim)
  | script handle => exact reads_map reads_findScript

mutual

theorem reads_readAction {s : Session} :
    ∀ {action : ActionText},
      Reads s (readAction action) fun a => ∀ id, a.Mentions id → s.Mentions id
  | .declare name type => by
    rw [readAction]
    exact reads_bind reads_readName fun _ _ _ _ => reads_pure fun _ hid => hid.elim
  | .assign target => by
    rw [readAction]
    exact reads_pure fun _ hid => hid.elim
  | .lookup path => by
    rw [readAction]
    exact reads_pure fun _ hid => hid.elim
  | .self => by
    rw [readAction]
    exact reads_pure fun _ hid => hid.elim
  | .native type value => by
    rw [readAction]
    refine reads_bind reads_find fun _ _ _ _ => ?_
    exact reads_bind reads_makePayload fun _ _ _ _ => reads_pure fun _ hid => hid.elim
  | .create type => by
    rw [readAction]
    exact reads_map (reads_find.mono fun _ _ _ hid => hid.elim)
  | .invoke inputs callee => by
    rw [readAction]
    refine reads_bind reads_readInputs fun _ _ _ hinputs => ?_
    exact reads_bind reads_readCallee fun _ _ _ hcallee => reads_pure fun id hid =>
      hid.elim (hinputs id) (hcallee id)
  | .clear => by
    rw [readAction]
    exact reads_pure fun _ hid => hid.elim

theorem reads_readCommand {s : Session} :
    ∀ {command : CommandText},
      Reads s (readCommand command) fun c => ∀ id, c.Mentions id → s.Mentions id
  | ⟨action, requires⟩ => by
    rw [readCommand]
    exact reads_bind reads_readAction fun _ _ _ haction => reads_pure haction

theorem reads_readCommands {s : Session} :
    ∀ {commands : List CommandText},
      Reads s (readCommands commands) fun cs => ∀ id, commandsMention id cs → s.Mentions id
  | [] => by
    rw [readCommands]
    exact reads_pure fun _ hid => hid.elim
  | c :: cs => by
    rw [readCommands]
    refine reads_bind reads_readCommand fun _ _ _ hc => ?_
    exact reads_bind reads_readCommands fun _ _ _ hcs => reads_pure fun id hid =>
      hid.elim (hc id) (hcs id)

theorem reads_readInputs {s : Session} :
    ∀ {inputs : List (List CommandText)},
      Reads s (readInputs inputs) fun is => ∀ id, inputsMention id is → s.Mentions id
  | [] => by
    rw [readInputs]
    exact reads_pure fun _ hid => hid.elim
  | i :: is => by
    rw [readInputs]
    refine reads_bind reads_readCommands fun _ _ _ hi => ?_
    exact reads_bind reads_readInputs fun _ _ _ his => reads_pure fun id hid =>
      hid.elim (hi id) (his id)

end

theorem reads_inspect {o : ObjectRef} : Reads s (inspect o) fun _ => True :=
  reads_bind reads_get fun _ _ _ _ => reads_pure trivial

theorem reads_inspectContext {ctx : Context} : Reads s (inspectContext ctx) fun _ => True := by
  cases ctx with
  | none => exact reads_pure trivial
  | some o => exact reads_map reads_inspect

theorem reads_answerThread {t : Thread} {object : Option ObjectRef} :
    Reads s (answerThread t object) fun _ => True := by
  refine reads_bind reads_inspectContext fun _ _ _ _ => ?_
  exact reads_bind reads_get fun _ _ _ _ => reads_pure trivial

theorem reads_debugText {target : DebugTarget} : Reads s (debugText target) fun _ => True := by
  cases target with
  | memory =>
    refine reads_bind reads_needOpen fun _ _ _ _ => ?_
    exact reads_bind reads_get fun _ _ _ _ => reads_pure trivial
  | group name => exact reads_bind reads_find fun _ _ _ _ => reads_pure trivial
  | builder name => exact reads_bind reads_find fun _ _ _ _ => reads_pure trivial
  | library name => exact reads_bind reads_find fun _ _ _ _ => reads_pure trivial

/-! ### Actions that leave something behind -/

theorem leaves_pure {a : α} {Q : Session → Prop} (h : Q s) : Leaves s (pure a) Q :=
  h

theorem leaves_of_reads {m : Host α} {R : α → Prop} {Q : Session → Prop} (hm : Reads s m R)
    (h : ∀ n, s.fresh ≤ n → Q (s.numbered n)) : Leaves s m Q := by
  obtain ⟨⟨n, hn, hs⟩, -⟩ := hm
  rw [Leaves, hs]
  exact h n hn

/-- First the action reads, and only what it found out matters. -/
theorem leaves_bind_reads {m : Host α} {f : α → Host β} {R : α → Prop} {Q : Session → Prop}
    (hm : Reads s m R) (h : ∀ n, s.fresh ≤ n → Q (s.numbered n))
    (hf : ∀ n a, s.fresh ≤ n → R a → Leaves (s.numbered n) (f a) Q) :
    Leaves s (m >>= f) Q := by
  obtain ⟨⟨n, hn, hs⟩, hR⟩ := hm
  rw [Leaves, run_bind]
  generalize m.run.run s = r at hs hR
  obtain ⟨r, s'⟩ := r
  obtain rfl : s' = s.numbered n := hs
  cases r with
  | error e => exact h n hn
  | ok a => exact hf n a hn (hR a rfl)

/-- What an action comes to say plays no part. -/
theorem leaves_bind_pure {m : Host α} {g : α → β} {Q : Session → Prop} (h : Leaves s m Q) :
    Leaves s (m >>= fun a => pure (g a)) Q := by
  rw [Leaves] at h ⊢
  rw [run_bind]
  generalize m.run.run s = r at h
  obtain ⟨r, s'⟩ := r
  cases r with
  | error e => exact h
  | ok a => exact h

theorem leaves_bind_get {f : Session → Host β} {Q : Session → Prop} (h : Leaves s (f s) Q) :
    Leaves s (getThe Session >>= f) Q :=
  h

theorem leaves_bind_fresh {f : Nat → Host β} {Q : Session → Prop}
    (h : Leaves (s.numbered (s.fresh + 1)) (f s.fresh) Q) : Leaves s (fresh >>= f) Q :=
  h

theorem leaves_bind_modify {g : Session → Session} {f : Unit → Host β} {Q : Session → Prop}
    (h : Leaves (g s) (f ()) Q) : Leaves s (modify g >>= f) Q :=
  h

theorem leaves_bind_ofResult {r : Except Error α} {f : α → Host β} {Q : Session → Prop}
    (hs : Q s) (h : ∀ a, r = .ok a → Leaves s (f a) Q) : Leaves s (ofResult r >>= f) Q := by
  cases r with
  | error e => exact hs
  | ok a => exact h a rfl

/-- An action on the store leaves its store behind, whether it works or not. -/
theorem leaves_bind_onStore {action : Session → Outcome α} {f : α → Host β}
    {Q : Session → Prop} (hs : ∀ e, (action s).1 = .error e → Q { s with store := (action s).2 })
    (h : ∀ a, (action s).1 = .ok a → Leaves { s with store := (action s).2 } (f a) Q) :
    Leaves s (onStore action >>= f) Q := by
  change Leaves { s with store := (action s).2 } (ofResult (action s).1 >>= f) Q
  cases hr : (action s).1 with
  | error e => exact hs e hr
  | ok a => exact h a hr

end Host

end Steward
