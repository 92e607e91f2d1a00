/-
Live links: what a thread sees is there for as long as the thread is.

A view owns nothing, and neither does a script.  That the groups of a thread are live is due to
others: the catalog keeps its libraries, a library its statics, the session or the run the
arguments and variables of the thread, and its invoker is held.

* **`Effect.standing_of_owned`** — as long as a session is open, nothing that happens to it takes
  away a group that it owns;
* **`Reachable.upheld`** — so the statics of libraries in use are live, and so are the groups of
  the threads that were entered;
* **`Sound.secure`** — whatever run is going on, the invokers of these threads are held;
* **`resolved_never_released`** — so a thread of a script that was resolved, if it was lent
  nothing, sees live groups only, from the time it is entered to the time it is left.

Design notes: during a run, what stands are the groups that stood at its start and those of its
threads (`Lodged`), so statics and variables need no argument of their own there.
-/
import Steward.Proofs.FirstWins
import Steward.Proofs.SecureRun
import Steward.Proofs.Shelves

namespace Steward

open Std (TreeMap TreeSet)

/-! ### What stands -/

namespace Store

variable {s : Store} {id : GroupId}

theorem isLive_of_standing (h : id ∈ s.standing) : s.isLive id = true := by
  obtain ⟨g, hg, -⟩ := h
  exact isLive_iff.mpr ⟨g, hg⟩

theorem standing_subset_allocate (hs : s.Orderly) (g : Group) :
    s.standing ⊆ (s.allocate g).2.standing := by
  intro id hid
  obtain ⟨g', hg', hrole⟩ := hid
  refine ⟨g', ?_, hrole⟩
  rw [allocate, group?_write, if_neg (Nat.ne_of_gt (hs.group_lt hg'))]
  exact hg'

/-- What is owned is not removed. -/
theorem standing_retain {owned : List GroupId} (hid : id ∈ owned) (h : id ∈ s.standing) :
    id ∈ (s.retain owned).standing := by
  obtain ⟨g, hg, hrole⟩ := h
  refine ⟨g, ?_, hrole⟩
  rw [retain, group?_releaseAll, if_neg]
  · exact hg
  · simp [hid]

end Store

namespace Session

variable {s s' : Session}

/-- Operations and runs leave behind what stood. -/
theorem Operation.standing_eq {r : Outcome Context} (hop : s.Operation r)
    (hs : s.store.Orderly) : r.2.standing = s.store.standing := by
  cases hop with
  | refer known => rfl
  | get hget => rfl
  | @set _ _ _ _ store known hset =>
    have hkeeps : s.store.Keeps (fun _ => False) store := Store.keeps_set hs hset
    exact hkeeps.standing_eq
  | @add _ _ _ _ store known hadd =>
    have hkeeps : s.store.Keeps (fun _ => True) store := Store.keeps_add hs trivial hadd
    exact hkeeps.standing_eq
  | @instantiate type isOpen known =>
    have hkeeps : s.store.Keeps (fun _ => False) _ := Store.keeps_instantiate hs type
    exact hkeeps.standing_eq
  | @bind type value isOpen known =>
    have hkeeps : s.store.Keeps (fun _ => False) _ := Store.keeps_bind hs type value
    exact hkeeps.standing_eq
  | @setPayload _ _ store known hset =>
    have hkeeps : s.store.Keeps (fun _ => False) store := Store.keeps_setPayload hs hset
    exact hkeeps.standing_eq
  | run hstart hrun => exact hrun.standing_eq hs

/-- **What an open session owns is not taken away from it.** -/
theorem Effect.standing_of_owned (heff : Effect s s') (hs : s.store.Orderly)
    (isOpen : s'.isOpen = true) {id : GroupId} (howned : id ∈ s.owned)
    (hid : id ∈ s.store.standing) : id ∈ s'.store.standing := by
  cases heff with
  | allocate _ => exact Store.standing_subset_allocate hs _ hid
  | draft _ => exact Store.standing_subset_allocate hs _ hid
  | operate hop =>
    exact (hop.standing_eq hs).symm ▸ hid
  | @enter c handle _ known given =>
    rcases he : Thread.enter s.store c.script c.invoker c.args c.scope with ⟨e | t, store⟩
    · exact (Thread.keeps_enter hs he fun _ => True).standing_eq.symm ▸ hid
    · exact (Thread.opens_enter hs he).standing_eq.symm ▸ .inr (.inr hid)
  | resume hp hs' turn hrun =>
    subst hs'
    exact (hrun.standing_eq hs).symm ▸ hid
  | @drop what name => exact (store_without s name what).symm ▸ hid
  | close => cases isOpen
  | tidy =>
    have hretained : (s.store.retain s.owned).Orderly :=
      (((Store.Changes.refl s.store).releaseAll _).ages hs).orderly
    have hsettled : (s.store.retain s.owned).Keeps (fun _ => False) s.tidy.store :=
      Store.keeps_letGo hretained s.held _
    exact hsettled.standing_eq.symm ▸ Store.standing_retain howned hid
  | note | remember | lock | pass | contract | type | wait | depend | define | script | addScript
  | build | load | resolve => exact hid

/-- A session that is open was so before, and what it has loaded stays loaded. -/
theorem Effect.catalog_subset (heff : Effect s s') (isOpen : s'.isOpen = true) :
    s.isOpen = true ∧ s.catalog.libraries ⊆ s'.catalog.libraries := by
  cases heff with
  | load _ known hload =>
    obtain ⟨rfl, -⟩ := Catalog.load_eq_ok hload
    exact ⟨isOpen, List.subset_append_left _ _⟩
  | @drop what name =>
    cases what with
    | object | group | view | builder | library | thread | lock | pending =>
      exact ⟨isOpen, List.Subset.refl _⟩
  | resume hp hs turn =>
    subst hs
    exact ⟨isOpen, List.Subset.refl _⟩
  | close => cases isOpen
  | note | remember | lock | pass | contract | type | allocate | operate | enter | wait | draft
  | depend | define | script | addScript | build | resolve | tidy =>
    exact ⟨isOpen, List.Subset.refl _⟩

theorem Effects.catalog_subset (h : s.Effects s') (isOpen : s'.isOpen = true) :
    s.isOpen = true ∧ s.catalog.libraries ⊆ s'.catalog.libraries := by
  induction h with
  | refl => exact ⟨isOpen, List.Subset.refl _⟩
  | tail _ heff ih =>
    obtain ⟨hopen, hsubset⟩ := heff.catalog_subset isOpen
    obtain ⟨hopen, hsubset'⟩ := ih hopen
    exact ⟨hopen, List.Subset.trans hsubset' hsubset⟩

/-- A thread was there before, or it has just been entered. -/
theorem Effect.thread (heff : Effect s s') (hs : s.store.Orderly) {t : Thread}
    (ht : t ∈ s'.threads.values) : t ∈ s.threads.values ∨ t.Opens s.store s'.store := by
  cases heff with
  | @enter c handle isOpen known given =>
    rcases he : Thread.enter s.store c.script c.invoker c.args c.scope with ⟨e | t', store⟩
    · rw [he] at ht
      exact .inl ht
    · rw [he] at ht
      refine (Table.mem_values_of_insert ht).symm.imp_right ?_
      rintro rfl
      exact Thread.opens_enter hs he
  | @drop what name =>
    cases what with
    | thread => exact .inl (Table.mem_values_of_erase ht)
    | object | group | view | builder | library | lock | pending => exact .inl ht
  | resume hp hs' turn =>
    subst hs'
    exact .inl ht
  | close => exact absurd ht List.not_mem_nil
  | note | remember | lock | pass | contract | type | allocate | operate | wait | draft | depend
  | define | script | addScript | build | load | resolve | tidy => exact .inl ht

/-- The statics of a library were those of one before, or they are new. -/
theorem Restock.statics (h : s.Restock s') {m : Library} (hm : s'.InUse m) :
    (∃ n, s.InUse n ∧ n.statics = m.statics) ∨ m.statics ∈ s'.store.standing := by
  have hbefore : s.InUse m → (∃ n, s.InUse n ∧ n.statics = m.statics) ∨
      m.statics ∈ s'.store.standing := fun hm => .inl ⟨m, hm, rfl⟩
  cases h with
  | keep drafts built => exact hbefore (hm.imp (built m) fun ⟨d, hd, heq⟩ => ⟨d, drafts ▸ hd, heq⟩)
  | start name handle drafts next standing built =>
    rcases hm with hm | ⟨d, hd, rfl⟩
    · exact hbefore (.inl (built m hm))
    · rw [drafts] at hd
      rcases Table.mem_values_of_insert hd with rfl | hd
      · exact .inr standing
      · exact hbefore (.inr ⟨d, hd, rfl⟩)
  | @revise builder d d' hd drafts statics scripts built =>
    rcases hm with hm | ⟨e, he, rfl⟩
    · exact hbefore (.inl (built m hm))
    · rw [drafts] at he
      rcases Table.mem_values_of_insert he with rfl | he
      · exact .inl ⟨d.library, .inr ⟨d, Table.mem_values_of_find? hd, rfl⟩, statics.symm⟩
      · exact hbefore (.inr ⟨e, he, rfl⟩)
  | @build builder d hd drafts built =>
    rcases hm with hm | ⟨e, he, rfl⟩
    · rcases built m hm with rfl | hm
      · exact hbefore (.inr ⟨d, Table.mem_values_of_find? hd, rfl⟩)
      · exact hbefore (.inl hm)
    · rw [drafts] at he
      exact hbefore (.inr ⟨e, Table.mem_values_of_erase he, rfl⟩)
  | drop drafts built =>
    rcases hm with hm | ⟨e, he, rfl⟩
    · exact hbefore (.inl (built m hm))
    · rw [drafts] at he
      exact hbefore (.inr ⟨e, Table.mem_values_of_erase he, rfl⟩)

/-- Whether the groups of libraries and threads stand. -/
structure Upheld (s : Session) : Prop where
  libraries : ∀ m, s.InUse m → m.statics ∈ s.store.standing
  threads : ∀ t ∈ s.threads.values, ∀ id ∈ t.groups, id ∈ s.store.standing

theorem mem_owned_of_thread {t : Thread} (ht : t ∈ s.threads.values) {id : GroupId}
    (hid : id ∈ t.groups) : id ∈ s.owned :=
  List.mem_append_right _ (List.mem_flatMap.mpr ⟨t, ht, hid⟩)

theorem upheld_effect (heff : Effect s s') (hs : s.store.Orderly) (hshelved : s.Shelved)
    (isOpen : s'.isOpen = true) (h : s.Upheld) : s'.Upheld where
  libraries m hm := by
    rcases heff.restock.statics hm with ⟨n, hn, heq⟩ | hnew
    · exact heq ▸ heff.standing_of_owned hs isOpen (hshelved.mem_owned hn) (h.libraries n hn)
    · exact hnew
  threads t ht id hid := by
    rcases heff.thread hs ht with ht | hopens
    · exact heff.standing_of_owned hs isOpen (mem_owned_of_thread ht hid) (h.threads t ht id hid)
    · rw [hopens.standing_eq]
      simp only [Thread.groups, List.mem_cons, List.not_mem_nil, or_false] at hid
      rcases hid with rfl | rfl
      · exact .inr (.inl rfl)
      · exact .inl rfl

/-- **The groups of libraries and threads stand in every session that is open.** -/
theorem Reachable.upheld (h : s.Reachable) (isOpen : s.isOpen = true) : s.Upheld := by
  have hall := h.induct (P := fun s => (s.Steady ∧ s.Shelved) ∧ (s.isOpen = true → s.Upheld))
    (fun config => ?_) fun heff ⟨⟨hsteady, hshelved⟩, hupheld⟩ => ?_
  · exact hall.2 isOpen
  · refine ⟨⟨steady_start config, shelved_start config⟩, fun _ => ⟨?_, ?_⟩⟩
    · rintro m (⟨l, hl | hl | ⟨d, hd, -⟩, -⟩ | ⟨d, hd, -⟩)
      · exact absurd hl List.not_mem_nil
      · exact absurd hl List.not_mem_nil
      · exact absurd hd List.not_mem_nil
      · exact absurd hd List.not_mem_nil
    · exact fun t ht => absurd ht List.not_mem_nil
  · refine ⟨⟨steady_effect heff hsteady, shelved_restock heff.restock hsteady.owners hshelved⟩, ?_⟩
    intro isOpen
    exact upheld_effect heff hsteady.orderly hshelved isOpen
      (hupheld (heff.catalog_subset isOpen).1)

/-- The statics of a script that was once resolved stand for as long as the session is open. -/
theorem Reachable.standing_of_resolved (hs : s'.Reachable) (isOpen : s'.isOpen = true)
    (h : s.Effects s') {name : Name} {x : Script} (hx : s.catalog.resolveScript name = .ok x)
    {id : GroupId} (hid : x.statics = some id) : id ∈ s'.store.standing := by
  obtain ⟨-, hsubset⟩ := h.catalog_subset isOpen
  obtain ⟨l, hl, hreach⟩ := List.mem_flatMap.mp (Catalog.mem_of_resolveScript hx)
  obtain ⟨m, hm, hscript⟩ := List.mem_flatMap.mp hreach
  have hinUse : s'.InUse m := .inl (built_of_catalog (hsubset hl) (Library.uses_of_mem_walk hm))
  have hstatics := hs.shelved.2.scripts m hinUse x hscript
  rw [hid] at hstatics
  cases hstatics
  exact (hs.upheld isOpen).libraries m hinUse

/-! ### Runs -/

/-- What may be going on in a session: nothing, a run that the host has started, or the run of a
call that has waited for its turn. -/
inductive Underway (s : Session) : Task → Prop where
  | rest (isOpen : s.isOpen = true) : Underway s (.done (.ok none))
  | started {task : Task} (h : s.Starts task) : Underway s task
  | resumed {name : String} {p : Pending} (h : s.pendings.find? name = some p)
      (turn : s.locks.holds p.object p.ticket = true) :
      Underway s (.call (s.without name .pending).held p.call)

theorem Sound.isOpen_of_underway (h : s.Sound) {start : Task} (hstart : s.Underway start) :
    s.isOpen = true := by
  cases hstart with
  | rest isOpen => exact isOpen
  | started hstarts => exact h.isOpen_of_starts hstarts
  | resumed hp turn => exact (h.pendings _ (Table.mem_values_of_find? hp)).1

/-- Whether an object is the invoker of a thread that the host has entered. -/
def Invokes (s : Session) (id : GroupId) : Prop :=
  ∃ t ∈ s.threads.values, id ∈ Context.refs t.invoker

theorem mem_held_of_invokes {id : GroupId} (h : s.Invokes id) : id ∈ s.held :=
  mem_held.mpr (.inr (.inl h))

/-- **Whatever run is going on, the invokers of the threads of the host are held.** -/
theorem Sound.secure (h : s.Sound) {start : Task} (hstart : s.Underway start) :
    Moment.Secure s.Invokes s.store ⟨start, [], s.store⟩ := by
  have hheld : ∀ id, s.Invokes id → id ∈ s.held := fun _ => mem_held_of_invokes
  cases hstart with
  | rest isOpen =>
    exact Moment.secure_start h.store (Store.hasContext_none _) fun _ _ => trivial
  | started hstarts => exact h.secure_started hheld hstarts
  | @resumed name p hp turn =>
    obtain ⟨-, hcall⟩ := h.pendings p (Table.mem_values_of_find? hp)
    -- the threads are those that there were before the call left its name
    refine Moment.secure_start h.store hcall fun id hid => ?_
    exact mem_held_of_invokes (s := s.without name .pending) hid

variable {start : Task} {m : Moment} {t : Thread}

/-- The fields of the invoker of a thread are live. -/
theorem Sound.isLive_invoker (h : s.Sound) (hstart : s.Underway start)
    (hm : Moment.Passes s.env ⟨start, [], s.store⟩ m)
    (ht : t ∈ s.threads.values ∨ t ∈ m.threads) {o : ObjectRef} (ho : t.invoker = some o) :
    m.store.isLive o.group = true := by
  have hsecure := hm.secure (h.secure hstart)
  have hhas : m.store.Has o := by
    rcases ht with ht | ht
    · refine hsecure.evolves.keeps ⟨t, ht, Context.group_mem_refs ho⟩ ?_
      exact (h.threads t ht).2 o ho
    · exact hsecure.has_invoker ht ho
  obtain ⟨p, hobject⟩ := hhas
  obtain ⟨g, hg⟩ := hsecure.evolves.housed (h.housed (h.isOpen_of_underway hstart)) hobject
  exact Store.isLive_iff.mpr ⟨g, hg⟩

/-- The arguments and variables of a thread are live. -/
theorem Reachable.standing_of_thread (h : s.Reachable) (hstart : s.Underway start)
    (hm : Moment.Passes s.env ⟨start, [], s.store⟩ m)
    (ht : t ∈ s.threads.values ∨ t ∈ m.threads) {id : GroupId} (hid : id ∈ t.groups) :
    id ∈ m.store.standing := by
  have hlodged := hm.lodged (Moment.lodged_start h.orderly start) h.orderly
  refine (hlodged.standing_iff id).mpr ?_
  rcases ht with ht | ht
  · exact .inl ((h.upheld (h.sound.isOpen_of_underway hstart)).threads t ht id hid)
  · exact .inr (List.mem_flatMap.mpr ⟨t, ht, hid⟩)

/-- A thread that was lent nothing sees live groups if the statics of its script stand. -/
theorem Reachable.allLive (h : s.Reachable) (hstart : s.Underway start)
    (hm : Moment.Passes s.env ⟨start, [], s.store⟩ m)
    (ht : t ∈ s.threads.values ∨ t ∈ m.threads) (hlent : t.scope.context = none)
    (hstatics : ∀ id, t.script.statics = some id → id ∈ s.store.standing) :
    m.store.AllLive t.view.links := by
  have hlodged := hm.lodged (Moment.lodged_start h.orderly start) h.orderly
  have hown : ∀ id ∈ t.groups, m.store.isLive id = true := fun id hid =>
    Store.isLive_of_standing (h.standing_of_thread hstart hm ht hid)
  intro id hid
  simp only [View.links, Thread.view, hlent, Option.toList_none, List.append_nil,
    List.append_assoc, List.mem_append, Option.mem_toList] at hid
  rcases hid with hid | hid | hid | hid
  · exact Store.isLive_of_standing ((hlodged.standing_iff id).mpr (.inl (hstatics id hid)))
  · obtain ⟨o, ho, rfl⟩ := Option.map_eq_some_iff.mp hid
    exact h.sound.isLive_invoker hstart hm ht ho
  · exact hown id (by simp [Thread.groups, List.mem_singleton.mp hid])
  · cases hid
    exact hown _ (by simp [Thread.groups])

end Session

/-! ### Views -/

/-- Whether nothing that is done through a view fails because a group was released. -/
structure View.Unbroken (v : View) (s : Store) : Prop where
  get : ∀ key id, v.get s key ≠ .error (.releasedGroup id)
  set : ∀ key value id, v.set s key value ≠ .error (.releasedGroup id)
  add : ∀ key value id, v.add s key value ≠ .error (.releasedGroup id)
  hasKey : ∀ key id, v.hasKey s key ≠ .error (.releasedGroup id)
  keys : ∀ id, v.keys s ≠ .error (.releasedGroup id)
  findKey? : ∀ name id, v.findKey? s name ≠ .error (.releasedGroup id)

theorem Key.check_map_ne {α : Type} (key : Key) (value : Option ObjectRef) (f : Unit → α)
    (id : GroupId) : (key.check value).map f ≠ .error (.releasedGroup id) := by
  intro h
  rw [Key.check.eq_def] at h
  split at h
  · cases h
  · split at h
    · cases h
    · cases h

/-- A view of live groups is not broken. -/
theorem View.unbroken_of_allLive {v : View} {s : Store} (hd : s.Every Group.Distinct)
    (live : s.AllLive v.links) : v.Unbroken s where
  get key id h := by
    rw [get_eq hd live] at h
    cases hslot : v.slot? s key with
    | none => simp [hslot] at h
    | some e => simp [hslot] at h
  set key value id h := by
    cases hslot : v.slot? s key with
    | none =>
      rw [set_missing hd live hslot] at h
      cases h
    | some e =>
      obtain ⟨s', -, hset⟩ := set_eq hd live hslot value
      rw [hset] at h
      exact key.check_map_ne value _ id h
  add key value id h := by
    cases htarget : v.target with
    | none =>
      rw [View.add, htarget] at h
      cases h
    | some target =>
      cases hnamed : v.named? s key.name with
      | none =>
        obtain ⟨s', -, hadd⟩ := add_eq live htarget hnamed value
        rw [hadd] at h
        exact key.check_map_ne value _ id h
      | some e =>
        rw [add_taken live htarget (by simp [hnamed])] at h
        cases h
  hasKey key id h := by
    rw [hasKey_eq hd live] at h
    cases h
  keys id h := by
    rw [keys_eq live] at h
    cases h
  findKey? name id h := by
    rw [findKey?_eq live] at h
    cases h

namespace Session

/-- **Scripts that were resolved never see a released group.**  Take a script that a session has
resolved, at any time later, and whatever is going on then, a thread of that script, entered by
the host or alive in the run, that was lent nothing: all groups it sees are live, and nothing it
does through its view fails because one was released. -/
theorem resolved_never_released {s : Session} (h : s.Reachable) {name : Name} {x : Script}
    (hx : s.catalog.resolveScript name = .ok x) (steps : List Step) {start : Task}
    (hstart : (s.steps steps).2.Underway start) {m : Moment}
    (hm : Moment.Passes (s.steps steps).2.env ⟨start, [], (s.steps steps).2.store⟩ m)
    {t : Thread} (ht : t ∈ (s.steps steps).2.threads.values ∨ t ∈ m.threads)
    (hscript : t.script = x) (hlent : t.scope.context = none) :
    m.store.AllLive t.view.links ∧ t.view.Unbroken m.store := by
  have hlater : (s.steps steps).2.Reachable := h.steps steps
  have hopen := hlater.sound.isOpen_of_underway hstart
  have live : m.store.AllLive t.view.links := by
    refine hlater.allLive hstart hm ht hlent fun id hid => ?_
    exact hlater.standing_of_resolved hopen (s.effects_steps steps) hx (hscript ▸ hid)
  refine ⟨live, View.unbroken_of_allLive ?_ live⟩
  exact hm.every Group.lasting_distinct (hlater.every Group.lasting_distinct)

/-- A library with a static and a script is loaded. -/
def shelfSteps : List Step := [
  .library (.start "Lib" "b"),
  .library (.addStatic none ("it", "Text") "b"),
  .call (.script "Keep" [] none [] none (some "b") "keep"),
  .library (.build "b" "lib"),
  .library (.load "lib")]

def shelf : Session :=
  ((start {}).steps shelfSteps).2

theorem reachable_shelf : shelf.Reachable :=
  reachable_steps {} shelfSteps

/-- The script is entered on an object, and the host drops every name but that of the thread. -/
def keepSteps : List Step := [
  .library (.resolve "Keep" .script (some "x")),
  .definition (.type "Point" [("x", "Text")] [] [] none none none "point"),
  .object (.instantiate "point" "p"),
  .call (.enter { script := "x", invoker := some "p" } {} "t"),
  .memory (.drop .library "lib"),
  .memory (.drop .object "p")]

def keeping : Session :=
  (shelf.steps keepSteps).2

namespace Sample

def keep : Script :=
  .mk 1 ⟨"Keep"⟩ [] none [] (some 1)

def callKeep : Command :=
  ⟨.invoke [] (.named ⟨"Keep"⟩), ∅⟩

end Sample

theorem resolved_never_released_keeping : ∃ t u m,
    Moment.Passes keeping.env ⟨.command keeping.held t none Sample.callKeep, [], keeping.store⟩ m ∧
    keeping.threads.values = [t] ∧ m.threads = [u] ∧
    t.view.links = [1, 2, 3, 4] ∧ u.view.links = [1, 2, 5, 6] ∧
    ∀ v ∈ [t, u], m.store.AllLive v.view.links ∧ v.view.Unbroken m.store := by
  have hx : shelf.catalog.resolveScript ⟨"Keep"⟩ = .ok Sample.keep := rfl
  have hkeep : keeping.env.scriptOf (.named ⟨"Keep"⟩) = .ok Sample.keep := rfl
  have hnext : keeping.store.next = 5 := by decide +kernel
  obtain ⟨t, ht, hscript, hscope, hgroups, hinvoker⟩ : ∃ t, keeping.threads.values = [t] ∧
      t.script = Sample.keep ∧ t.scope = {} ∧ t.groups = [3, 4] ∧
      t.invoker.map ObjectRef.group = some 2 :=
    ⟨_, rfl, rfl, rfl, by decide +kernel, by decide +kernel⟩
  have hmem : t ∈ keeping.threads.values := by simp [ht]
  have hstart : keeping.Underway (.command keeping.held t none Sample.callKeep) := by
    refine .started (.command hmem (fun o ho => by cases ho) fun id hid => ?_)
    simp [Sample.callKeep, Command.Mentions, Action.Mentions, inputsMention,
      Callee.Mentions] at hid
  have hdepth : t.scope.child.depth ≤ keeping.env.limit := by
    rw [hscope]
    decide +kernel
  have hcall : Moment.Undisturbed keeping.env
      ⟨.command keeping.held t none Sample.callKeep, [], keeping.store⟩ _ :=
    .head (.dispatch (by rw [hscope]; rfl)) <| .head (.prepare rfl hkeep) <| .head .invoke <|
      .single (.entered hdepth rfl)
  refine ⟨t, _, _, hcall.passes, ht, rfl, ?_, ?_, ?_⟩
  · obtain ⟨hinputs, hlocals⟩ : t.inputs = 3 ∧ t.locals = 4 := by simpa [Thread.groups] using hgroups
    simp [View.links, Thread.view, hscript, hscope, hinvoker, hinputs, hlocals, Sample.keep,
      Script.statics]
  · simp [View.links, Thread.view, hinvoker, hnext, Sample.keep, Script.statics, Scope.child,
      Store.write, Store.skip]
  · intro v hv
    simp only [List.mem_cons, List.not_mem_nil, or_false] at hv
    rcases hv with rfl | rfl
    · exact resolved_never_released reachable_shelf hx keepSteps hstart hcall.passes (.inl hmem)
        hscript (by rw [hscope])
    · exact resolved_never_released reachable_shelf hx keepSteps hstart hcall.passes
        (.inr List.mem_cons_self) rfl rfl

end Session

end Steward
