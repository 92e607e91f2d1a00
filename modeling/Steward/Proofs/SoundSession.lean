/-
Sound sessions: what holds of the memory whatever a host does.

`Session.Sound` says of a session that its store is sound, that every object has its group
as long as the session is open, and that whatever a name, a thread or a waiting call refers
to is there.  Every effect keeps it (`sound_effect`), so it holds of every session there can
be (`Reachable.sound`), and with it

* **`types_preserved`** — every value of a slot satisfies the type of the slot, every
  payload is of a kind that the type of its object accepts, and what a script gives back
  satisfies the type it declares.

Design notes: the store of a closed session still has the objects that the host has names
for, without their groups.  This is why `housed` asks for an open session, and why a closed
one has no thread and no waiting call, which could make another group.
-/
import Steward.Proofs.SecureRun
import Steward.Proofs.SessionEffects

namespace Steward

open Std (TreeMap TreeSet)

namespace Session

/-- What holds of a session at all times. -/
structure Sound (s : Session) : Prop where
  store : s.store.Sound
  housed : s.isOpen = true → s.store.Housed
  closed : s.isOpen = false → ∀ id, s.store.group? id = none
  objects : ∀ o ∈ s.objects.values, s.store.Has o
  threads : ∀ t ∈ s.threads.values, s.isOpen = true ∧ s.store.HasContext t.invoker
  pendings : ∀ p ∈ s.pendings.values, s.isOpen = true ∧ s.store.HasContext p.call.invoker ∧
    ∀ a ∈ p.call.args, s.store.HasContext a

theorem sound_start (config : Config) : (start config).Sound where
  store := Store.sound_empty
  housed _ _ _ _ ho := by
    simp [start, Store.objectAt?] at ho
  closed h := by cases h
  objects o ho := absurd ho List.not_mem_nil
  threads t ht := absurd ht List.not_mem_nil
  pendings p hp := absurd hp List.not_mem_nil

/-- Soundness depends on five fields only. -/
theorem Sound.congr {s s' : Session} (h : s.Sound) (isOpen : s'.isOpen = s.isOpen)
    (store : s'.store = s.store) (objects : s'.objects = s.objects)
    (threads : s'.threads = s.threads) (pendings : s'.pendings = s.pendings) : s'.Sound where
  store := store ▸ h.store
  housed ho := store ▸ h.housed (isOpen ▸ ho)
  closed hc := store ▸ h.closed (isOpen ▸ hc)
  objects := objects ▸ store ▸ h.objects
  threads := threads ▸ store ▸ isOpen ▸ h.threads
  pendings := pendings ▸ store ▸ isOpen ▸ h.pendings

/-! ### What is held -/

theorem mem_held {s : Session} {id : GroupId} :
    id ∈ s.held ↔ (∃ o ∈ s.objects.values, o.group = id) ∨
      (∃ t ∈ s.threads.values, id ∈ Context.refs t.invoker) ∨
      ∃ p ∈ s.pendings.values, id ∈ callRefs p.call := by
  rw [held, TreeSet.mem_ofList, List.contains_iff_mem]
  simp only [List.mem_append, List.mem_map, List.mem_flatMap, or_assoc]

theorem Sound.hasContext {s : Session} (h : s.Sound) {ctx : Context} (known : s.Knows ctx) :
    s.store.HasContext ctx :=
  fun o ho => h.objects o (known o ho)

/-- A store that keeps what is held makes a sound session again. -/
theorem Sound.evolve {s : Session} (h : s.Sound) {store : Store}
    (hev : s.store.Evolves (· ∈ s.held) store)
    (closed : s.isOpen = false → ∀ id, store.group? id = none) : { s with store }.Sound where
  store := hev.sound
  housed ho := hev.housed (h.housed ho)
  closed := closed
  objects o ho := hev.keeps (mem_held.mpr (.inl ⟨o, ho, rfl⟩)) (h.objects o ho)
  threads t ht := by
    obtain ⟨isOpen, hctx⟩ := h.threads t ht
    refine ⟨isOpen, hev.hasContext hctx fun o ho => ?_⟩
    exact mem_held.mpr (.inr (.inl ⟨t, ht, Context.group_mem_refs ho⟩))
  pendings p hp := by
    obtain ⟨isOpen, hinv, hargs⟩ := h.pendings p hp
    refine ⟨isOpen, hev.hasContext hinv fun o ho => ?_, fun a ha => ?_⟩
    · refine mem_held.mpr (.inr (.inr ⟨p, hp, ?_⟩))
      exact List.mem_append_left _ (Context.group_mem_refs ho)
    · refine hev.hasContext (hargs a ha) fun o ho => ?_
      refine mem_held.mpr (.inr (.inr ⟨p, hp, ?_⟩))
      exact List.mem_append_right _ (List.mem_flatMap.mpr ⟨a, ha, Context.group_mem_refs ho⟩)

/-! ### Operations -/

/-- The invoker of a thread that the host has entered is held. -/
theorem Sound.guarded {s : Session} (h : s.Sound) {t : Thread} (ht : t ∈ s.threads.values) :
    s.store.Guarded (· ∈ s.held) t.invoker :=
  (h.threads t ht).2.guarded fun _ hid => mem_held.mpr (.inr (.inl ⟨t, ht, hid⟩))

/-- Whatever is run, what it begins with is there. -/
theorem Sound.secure_started {s : Session} (h : s.Sound) {base : GroupId → Prop}
    (hbase : ∀ id, base id → id ∈ s.held) {task : Task} (hstart : s.Starts task) :
    Moment.Secure base s.store ⟨task, [], s.store⟩ := by
  cases hstart with
  | call isOpen known =>
    refine Moment.secure_start h.store ⟨h.hasContext known.1, ?_⟩ hbase
    exact fun a ha => h.hasContext (known.2 a ha)
  | construct isOpen known => exact Moment.secure_start h.store trivial hbase
  | command thread known =>
    exact Moment.secure_start h.store ⟨h.guarded thread, h.hasContext known⟩ hbase
  | commands thread known =>
    exact Moment.secure_start h.store ⟨h.guarded thread, h.hasContext known⟩ hbase

/-- Whatever operation is done, what is held is still there, and so is what comes of it. -/
theorem Sound.lands_operation {s : Session} (h : s.Sound) {r : Outcome Context}
    (hop : s.Operation r) : Lands (· ∈ s.held) s.store Store.HasContext r := by
  cases hop with
  | refer known =>
    refine ⟨.refl h.store, ?_⟩
    intro ctx hctx
    cases hctx
    exact Store.hasContext_some (h.objects _ known)
  | get hget =>
    refine ⟨.refl h.store, ?_⟩
    intro ctx hctx
    cases hctx
    rintro o rfl
    exact h.store.has_of_get hget
  | @set id key value old store known hset =>
    have hev : s.store.Evolves (fun _ => True) store :=
      Store.evolves_set h.store (h.hasContext known) hset
    refine ⟨hev.mono fun _ _ => trivial, ?_⟩
    intro ctx hctx
    cases hctx
    refine hev.hasContext ?_ fun _ _ => trivial
    -- what is replaced was there, since it was in a slot
    obtain ⟨g, g', hg, hset, -⟩ := Store.set_cases hset
    rintro o rfl
    exact h.store.present hg o (Group.mem_values_of_set hset)
  | add known hadd =>
    refine ⟨Store.evolves_add h.store (h.hasContext known) hadd, ?_⟩
    intro ctx hctx
    cases hctx
    exact Store.hasContext_none _
  | instantiate isOpen known =>
    refine ⟨Store.evolves_instantiate h.store _, ?_⟩
    intro ctx hctx
    cases hctx
    exact Store.hasContext_some (Store.has_instantiate _)
  | bind isOpen known => exact (Thread.lands_bind h.store _ _).map_some
  | setPayload known hset =>
    refine ⟨Store.evolves_setPayload h.store (h.objects _ known) hset, ?_⟩
    intro ctx hctx
    cases hctx
    exact Store.hasContext_none _
  | run hstart hrun => exact hrun.lands (h.secure_started (fun _ hid => hid) hstart)

/-- Nothing runs in a closed session. -/
theorem Sound.isOpen_of_starts {s : Session} (h : s.Sound) {task : Task}
    (hstart : s.Starts task) : s.isOpen = true := by
  cases hstart with
  | call isOpen known => exact isOpen
  | construct isOpen known => exact isOpen
  | command thread known => exact (h.threads _ thread).1
  | commands thread known => exact (h.threads _ thread).1

/-- No operation makes a group in a closed session. -/
theorem Sound.closed_operation {s : Session} (h : s.Sound) {r : Outcome Context}
    (hop : s.Operation r) (hc : s.isOpen = false) (id : GroupId) : r.2.group? id = none := by
  -- whatever could make a group has checked that the session is open
  have notOpen : s.isOpen = true → r.2.group? id = none := fun isOpen => by
    rw [hc] at isOpen
    cases isOpen
  cases hop with
  | refer known => exact h.closed hc id
  | get hget => exact h.closed hc id
  | set known hset =>
    obtain ⟨g, -, hg, -⟩ := Store.set_cases hset
    rw [h.closed hc] at hg
    cases hg
  | add known hadd =>
    obtain ⟨g, -, hg, -⟩ := Store.add_cases hadd
    rw [h.closed hc] at hg
    cases hg
  | instantiate isOpen known => exact notOpen isOpen
  | bind isOpen known => exact notOpen isOpen
  | setPayload known hset =>
    obtain ⟨-, -, hgroups, -⟩ := Store.setPayload_cases hset
    rw [hgroups, h.closed hc]
  | run hstart => exact notOpen (h.isOpen_of_starts hstart)

theorem sound_after {s : Session} (h : s.Sound) {r : Outcome Context}
    (hr : Lands (· ∈ s.held) s.store Store.HasContext r)
    (closed : s.isOpen = false → ∀ id, r.2.group? id = none) (name : Option String) :
    (s.after r name).Sound := by
  have hs := h.evolve hr.evolves closed
  have hobjects : ∀ o ∈ (s.after r name).objects.values, r.2.Has o := by
    intro o ho
    unfold after at ho
    dsimp only at ho
    split at ho
    · rename_i o' name' hok
      rcases Table.mem_values_of_insert ho with rfl | ho
      · exact hr.result _ hok o rfl
      · exact hs.objects o ho
    · exact hs.objects o (Table.mem_values_of_erase ho)
    · exact hs.objects o ho
  exact ⟨hs.store, hs.housed, hs.closed, hobjects, hs.threads, hs.pendings⟩

/-! ### Effects -/

theorem sound_without {s : Session} (h : s.Sound) (name : String) (what : Droppable) :
    (s.without name what).Sound := by
  cases what with
  | object =>
    exact { h with objects := fun o ho => h.objects o (Table.mem_values_of_erase ho) }
  | thread =>
    exact { h with threads := fun t ht => h.threads t (Table.mem_values_of_erase ht) }
  | pending =>
    exact { h with pendings := fun p hp => h.pendings p (Table.mem_values_of_erase hp) }
  | group => exact h.congr rfl rfl rfl rfl rfl
  | view => exact h.congr rfl rfl rfl rfl rfl
  | builder => exact h.congr rfl rfl rfl rfl rfl
  | library => exact h.congr rfl rfl rfl rfl rfl
  | lock => exact h.congr rfl rfl rfl rfl rfl

/-- A group without values makes no difference to anything that is there. -/
theorem sound_allocate {s : Session} (h : s.Sound) (isOpen : s.isOpen = true) {g : Group}
    (fits : g.Fits) (empty : g.values = []) :
    { s with store := (s.store.allocate g).2 }.Sound := by
  refine h.evolve (Store.evolves_allocate h.store fits ?_) ?_
  · intro v hv
    rw [empty] at hv
    cases hv
  · intro hc
    rw [isOpen] at hc
    cases hc

theorem sound_entered {s : Session} (h : s.Sound) (isOpen : s.isOpen = true) {c : Call}
    (known : s.KnowsCall c) (name : String) :
    (s.entered (Thread.enter s.store c.script c.invoker c.args c.scope) name).Sound := by
  have henter : Lands (fun _ => True) s.store
      (fun s' t => t.invoker = c.invoker ∧ s'.Spare t.inputs ∧ s'.Spare t.locals)
      (Thread.enter s.store c.script c.invoker c.args c.scope) :=
    Thread.lands_enter h.store fun a ha => h.hasContext (known.2 a ha)
  -- only the invoker of the thread matters from here on
  generalize Thread.enter s.store c.script c.invoker c.args c.scope = r at henter
  have hev : s.store.Evolves (· ∈ s.held) r.2 := henter.evolves.mono fun _ _ => trivial
  have hs : { s with store := r.2 }.Sound := h.evolve hev fun hc => by
    rw [isOpen] at hc
    cases hc
  refine { hs with threads := ?_ }
  intro t ht
  unfold entered at ht
  dsimp only at ht
  split at ht
  · rename_i t' hok
    rcases Table.mem_values_of_insert ht with rfl | ht
    · refine ⟨isOpen, ?_⟩
      rw [(henter.result t hok).1]
      exact henter.evolves.hasContext (h.hasContext known.1) fun _ _ => trivial
    · exact hs.threads t ht
  · exact hs.threads t ht

/-- A waiting call runs without the references that it was kept for; it brings them along. -/
theorem sound_resumed {s : Session} (h : s.Sound) {p : Pending} {pending : String}
    (hp : s.pendings.find? pending = some p) {out : Outcome Context}
    (hrun : Moment.ComesTo (s.without pending .pending).env
      ⟨.call (s.without pending .pending).held p.call, [], s.store⟩ out) (name : Option String) :
    ((s.without pending .pending).after out name).Sound := by
  obtain ⟨isOpen, hready⟩ := h.pendings p (Table.mem_values_of_find? hp)
  refine sound_after (sound_without h pending .pending) ?_ ?_ name
  · exact hrun.lands (Moment.secure_start h.store hready fun _ hid => hid)
  · intro hc
    rw [without, isOpen] at hc
    cases hc

theorem sound_shut {s : Session} (h : s.Sound) : s.shut.Sound where
  store := Store.sound_clear h.store
  housed ho := by cases ho
  closed _ id := Store.group?_clear s.store id
  objects o ho := Store.has_clear_iff.mpr (h.objects o ho)
  threads t ht := absurd ht List.not_mem_nil
  pendings p hp := absurd hp List.not_mem_nil

theorem sound_tidy {s : Session} (h : s.Sound) : s.tidy.Sound := by
  have hret : s.store.Evolves (· ∈ s.held) (s.store.retain s.owned) :=
    Store.evolves_retain h.store s.owned
  refine h.evolve (hret.trans (Store.evolves_letGo hret.sound s.held _)) ?_
  -- a closed session had no groups before, and none are made
  intro hc id
  cases hg : ((s.store.retain s.owned).settle s.held).group? id with
  | none => rfl
  | some g =>
    have hg := Store.group?_letGo hg
    rw [Store.retain, Store.group?_releaseAll] at hg
    split at hg
    · cases hg
    · rw [h.closed hc id] at hg
      cases hg

/-- Every effect keeps a session sound. -/
theorem sound_effect {s s' : Session} (heff : Effect s s') (h : s.Sound) : s'.Sound := by
  cases heff with
  | note up => exact h.congr rfl rfl rfl rfl rfl
  | remember given => exact h.congr rfl rfl rfl rfl rfl
  | lock known free => exact h.congr rfl rfl rfl rfl rfl
  | pass free => exact h.congr rfl rfl rfl rfl rfl
  | contract known hdef => exact h.congr rfl rfl rfl rfl rfl
  | type parent contracts hbuild => exact h.congr rfl rfl rfl rfl rfl
  | @allocate role keys handle isOpen =>
    have hs := sound_allocate h isOpen (Group.fits_ofKeys role keys) (Group.values_ofKeys role keys)
    exact hs.congr rfl rfl rfl rfl rfl
  | operate hop => exact sound_after h (h.lands_operation hop) (h.closed_operation hop) _
  | enter isOpen known => exact sound_entered h isOpen known _
  | wait isOpen known =>
    refine { h with pendings := ?_ }
    intro p hp
    rcases Table.mem_values_of_insert hp with rfl | hp
    · exact ⟨isOpen, h.hasContext known.1, fun a ha => h.hasContext (known.2 a ha)⟩
    · exact h.pendings p hp
  | resume hp hs turn hrun =>
    subst hs
    exact sound_resumed h hp hrun _
  | draft isOpen =>
    -- a draft brings an empty group for its statics
    have hs := sound_allocate h isOpen (g := ⟨.statics, []⟩)
      (fun x hx => absurd hx List.not_mem_nil) rfl
    exact hs.congr rfl rfl rfl rfl rfl
  | depend hd known => exact h.congr rfl rfl rfl rfl rfl
  | define hd known hd' => exact h.congr rfl rfl rfl rfl rfl
  | script hstamp => exact h.congr rfl rfl rfl rfl rfl
  | addScript hd hadd => exact h.congr rfl rfl rfl rfl rfl
  | build hd hl => exact h.congr rfl rfl rfl rfl rfl
  | load isOpen known hload => exact h.congr rfl rfl rfl rfl rfl
  | resolve hscript => exact h.congr rfl rfl rfl rfl rfl
  | drop => exact sound_without h _ _
  | close => exact sound_shut h
  | tidy => exact sound_tidy h

/-- Every session there can be is sound. -/
theorem Reachable.sound {s : Session} (h : s.Reachable) : s.Sound :=
  h.induct sound_start sound_effect

/-- **Types are preserved**, whatever steps a host takes, in whatever order, and whether they
work or not: every value of a slot of a live group satisfies the type the slot was declared
with, every payload is of a kind that the type of its object accepts, and a call gives back
an object only if its script declares a type, and one that satisfies it.  The last holds of
every call, nested or not, with whatever is left of the limit, and whoever is cancelled in the
course of it. -/
theorem types_preserved {s : Session} (h : s.Reachable) :
    (∀ (id : GroupId) (g : Group), s.store.group? id = some g → ∀ x ∈ g.slots, ∀ v : ObjectRef,
      x.value = some v → v.satisfies x.key.type = true) ∧
    (∀ (id : GroupId) (x : Object) (p : Payload), s.store.objects[id]? = some x →
      x.payload = some p → x.ref.type.accepts p.kind = true) ∧
    (∀ (room : Nat) (held : Held) (c : Call) (store store' : Store) (v : ObjectRef),
      callAt s.env room held c store = (.ok (some v), store') →
        ∃ expected, c.script.returns = some expected ∧ v.satisfies expected = true) ∧
    (∀ (held : Held) (c : Call) (store store' : Store) (v : ObjectRef),
      Moment.ComesTo s.env ⟨.call held c, [], store⟩ (.ok (some v), store') →
        ∃ expected, c.script.returns = some expected ∧ v.satisfies expected = true) := by
  refine ⟨?_, ?_, ?_, ?_⟩
  · intro id g hg x hx v hv
    exact h.sound.store.fits hg x hx v hv
  · intro id x p hx hp
    have hat : s.store.objectAt? id = some (x.ref, some p) := by
      rw [Store.objectAt?, hx, Option.map_some, Object.core, hp]
    exact h.sound.store.payloads hat
  · intro room held c store store' v hrun
    exact callAt_returns hrun
  · intro held c store store' v hrun
    exact hrun.returns

/-- A host gives a slot a contract for its type and puts an object there whose type fulfils
the contract by way of its parent. -/
def sampleSteps : List Step := [
  .definition (.contract "Labelled" [("label", "Text")] [] "labelled"),
  .definition (.type "Figure" [("label", "Text")] [] ["labelled"] none none none "figure"),
  .definition (.type "Point" [] [] [] (some "figure") none none "point"),
  .object (.instantiate "point" "p"),
  .memory (.alloc .statics (some [("it", "Labelled")]) "g"),
  .memory (.rawSet (.group "g") ("it", "Labelled") (some "p") none)]

def sample : Session :=
  ((start {}).steps sampleSteps).2

theorem reachable_sample : sample.Reachable :=
  reachable_steps {} sampleSteps

theorem types_preserved_sample :
    sample.store.valuesIn 2 = [1] ∧
    (∀ (id : GroupId) (g : Group), sample.store.group? id = some g → ∀ x ∈ g.slots,
      ∀ v : ObjectRef, x.value = some v → v.satisfies x.key.type = true) :=
  ⟨by decide +kernel, (types_preserved reachable_sample).1⟩

end Session

end Steward
