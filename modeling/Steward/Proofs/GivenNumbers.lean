/-
Given numbers: nobody has the number of a group before there is such a group.

Numbers are given out by the store, one after the other.  A host passes on those it was given,
in scripts, in scopes and in libraries, and cannot make one up; a script that runs gets at no
more than was written into it, or into the scripts of the catalog.

* **`Reachable.given`** — the numbers that stand anywhere in a session were given out;
* **`Next.mentions`** — from one moment of a run to the next no number comes up, but those that
  the catalog mentions;
* **`Reachable.mentions_lt`** — so this holds of every call that is made in a run.

Design notes: the numbers of objects are left to `Steady`, which says more, namely that the
objects are there.
-/
import Steward.Proofs.LiveLinks

namespace Steward

/-- A script that is resolved mentions what the libraries of the catalog do. -/
theorem Catalog.mentions_of_resolveScript {c : Catalog} {name : Name} {x : Script}
    (hx : c.resolveScript name = .ok x) {id : GroupId} (hid : x.Mentions id) :
    ∃ l ∈ c.libraries, l.Mentions id := by
  obtain ⟨l, hl, hreach⟩ := List.mem_flatMap.mp (mem_of_resolveScript hx)
  obtain ⟨m, hm, hscript⟩ := List.mem_flatMap.mp hreach
  exact ⟨l, hl, m, Library.uses_of_mem_walk hm, .inr ⟨x, hscript, hid⟩⟩

/-! ### Sessions -/

namespace Session

variable {s s' : Session} {id : GroupId}

/-- Whether the numbers that stand in a session, except for those of objects, were given out by
the store. -/
structure Given (s : Session) : Prop where
  groups : ∀ id ∈ s.groups.values, id < s.store.next
  ids : ∀ id ∈ s.ids.values, id < s.store.next
  drafts : ∀ d ∈ s.drafts.values, ∀ id, d.library.Mentions id → id < s.store.next
  libraries : ∀ l ∈ s.libraries.values, ∀ id, l.Mentions id → id < s.store.next
  catalog : ∀ l ∈ s.catalog.libraries, ∀ id, l.Mentions id → id < s.store.next
  scripts : ∀ x ∈ s.scripts.values, ∀ id, x.Mentions id → id < s.store.next
  threads : ∀ t ∈ s.threads.values, ∀ id, t.Mentions id → id < s.store.next
  pendings : ∀ p ∈ s.pendings.values, ∀ id, p.call.Mentions id → id < s.store.next

theorem given_start (config : Config) : (start config).Given where
  groups _ hid := absurd hid List.not_mem_nil
  ids _ hid := absurd hid List.not_mem_nil
  drafts _ hd := absurd hd List.not_mem_nil
  libraries _ hl := absurd hl List.not_mem_nil
  catalog _ hl := absurd hl List.not_mem_nil
  scripts _ hx := absurd hx List.not_mem_nil
  threads _ ht := absurd ht List.not_mem_nil
  pendings _ hp := absurd hp List.not_mem_nil

/-- Every number that a session mentions was given out. -/
theorem Given.lt (h : s.Given) (hs : s.Steady) (hid : s.Mentions id) : id < s.store.next := by
  rcases hid with ⟨o, ho, rfl⟩ | hid | hid | ⟨d, hd, hid⟩ | ⟨l, hl, hid⟩ | ⟨l, hl, hid⟩ |
    ⟨x, hx, hid⟩ | ⟨t, ht, hid⟩ | ⟨p, hp, hid⟩
  · obtain ⟨payload, hobject⟩ := hs.sound.objects o ho
    exact hs.orderly.object_lt hobject
  · exact h.groups id hid
  · exact h.ids id hid
  · exact h.drafts d hd id hid
  · exact h.libraries l hl id hid
  · exact h.catalog l hl id hid
  · exact h.scripts x hx id hid
  · exact h.threads t ht id hid
  · exact h.pendings p hp id hid

/-- What was given out stays so. -/
theorem Given.later (h : s.Given) {store : Store} (hnext : s.store.next ≤ store.next) :
    { s with store }.Given where
  groups id hid := Nat.lt_of_lt_of_le (h.groups id hid) hnext
  ids id hid := Nat.lt_of_lt_of_le (h.ids id hid) hnext
  drafts d hd id hid := Nat.lt_of_lt_of_le (h.drafts d hd id hid) hnext
  libraries l hl id hid := Nat.lt_of_lt_of_le (h.libraries l hl id hid) hnext
  catalog l hl id hid := Nat.lt_of_lt_of_le (h.catalog l hl id hid) hnext
  scripts x hx id hid := Nat.lt_of_lt_of_le (h.scripts x hx id hid) hnext
  threads t ht id hid := Nat.lt_of_lt_of_le (h.threads t ht id hid) hnext
  pendings p hp id hid := Nat.lt_of_lt_of_le (h.pendings p hp id hid) hnext

theorem Given.drafted (h : s.Given) {d : Draft} (handle : String)
    (hd : ∀ id, d.library.Mentions id → id < s.store.next) :
    { s with drafts := s.drafts.insert handle d }.Given := by
  refine { h with drafts := fun d' hd' => ?_ }
  rcases Table.mem_values_of_insert hd' with rfl | hd'
  · exact hd
  · exact h.drafts d' hd'

theorem Given.scripted (h : s.Given) {x : Script} (handle : String)
    (hx : ∀ id, x.Mentions id → id < s.store.next) :
    { s with scripts := s.scripts.insert handle x }.Given := by
  refine { h with scripts := fun y hy => ?_ }
  rcases Table.mem_values_of_insert hy with rfl | hy
  · exact hx
  · exact h.scripts y hy

theorem given_without (h : s.Given) (name : String) (what : Droppable) :
    (s.without name what).Given := by
  cases what with
  | group => exact { h with groups := fun id hid => h.groups id (Table.mem_values_of_erase hid) }
  | builder => exact { h with drafts := fun d hd => h.drafts d (Table.mem_values_of_erase hd) }
  | library =>
    exact { h with libraries := fun l hl => h.libraries l (Table.mem_values_of_erase hl) }
  | thread => exact { h with threads := fun t ht => h.threads t (Table.mem_values_of_erase ht) }
  | pending => exact { h with pendings := fun p hp => h.pendings p (Table.mem_values_of_erase hp) }
  | object | view | lock => exact { h with }

/-- A thread mentions what its call did, and has two groups of its own. -/
theorem given_entered (h : s.Given) (hs : s.store.Orderly) {c : Call}
    (hc : ∀ id, c.Mentions id → id < s.store.next) (name : String) :
    (s.entered (Thread.enter s.store c.script c.invoker c.args c.scope) name).Given := by
  rcases he : Thread.enter s.store c.script c.invoker c.args c.scope with ⟨e | t, store⟩
  · exact { h.later (Thread.keeps_enter hs he fun _ => False).next_le with }
  · have hopens := Thread.opens_enter hs he
    obtain ⟨hscript, -, hscope⟩ := Thread.enter_eq_ok he
    refine { h.later hopens.next_le with threads := fun t' ht' => ?_ }
    rcases Table.mem_values_of_insert ht' with rfl | ht'
    · intro id hid
      rcases hid with hid | hid | rfl | rfl
      · exact Nat.lt_of_lt_of_le (hc id (.inl (hscript ▸ hid))) hopens.next_le
      · exact Nat.lt_of_lt_of_le (hc id (.inr (hscope ▸ hid))) hopens.next_le
      · exact hopens.orderly.lt_of_standing (hopens.standing_eq ▸ .inr (.inl rfl))
      · exact hopens.orderly.lt_of_standing (hopens.standing_eq ▸ .inl rfl)
    · exact (h.later hopens.next_le).threads t' ht'

theorem given_effect (heff : Effect s s') (hs : s.Steady) (h : s.Given) : s'.Given := by
  have hnext : s.store.next ≤ s'.store.next := (heff.changes.ages hs.orderly).next_le
  have hlt : ∀ {id}, s.Mentions id → id < s.store.next := h.lt hs
  cases heff with
  | @remember id handle given =>
    refine { h with ids := fun id' hid' => ?_ }
    rcases Table.mem_values_of_insert hid' with rfl | hid'
    · exact hlt given
    · exact h.ids id' hid'
  | @allocate role keys handle isOpen =>
    refine { h.later hnext with groups := fun id hid => ?_ }
    rcases Table.mem_values_of_insert hid with rfl | hid
    · exact Nat.lt_succ_self _
    · exact (h.later hnext).groups id hid
  | operate hop => exact { h.later hnext with }
  | enter isOpen known given =>
    exact given_entered h hs.orderly (fun id hid => hlt (given id hid)) _
  | @wait c object name isOpen known given taken =>
    refine { h with pendings := fun p hp => ?_ }
    rcases Table.mem_values_of_insert hp with rfl | hp
    · exact fun id hid => hlt (given id hid)
    · exact h.pendings p hp
  | @resume _ p name _ handle hp hs' turn hrun =>
    subst hs'
    exact { (given_without h name .pending).later hnext with }
  | @draft name handle isOpen =>
    refine (h.later hnext).drafted handle fun id hid => ?_
    rcases Library.mentions_iff.mp hid with (rfl | ⟨x, hx, -⟩) | ⟨l, hl, -⟩
    · exact Nat.lt_succ_self _
    · exact absurd hx List.not_mem_nil
    · exact absurd hl List.not_mem_nil
  | @depend d l builder hd known =>
    refine h.drafted builder fun id hid => ?_
    have hdraft := h.drafts d (Table.mem_values_of_find? hd) id
    rcases Library.mentions_iff.mp hid with hown | ⟨m, hm, hmention⟩
    · exact hdraft (Library.mentions_iff.mpr (.inl hown))
    · rcases List.mem_append.mp hm with hm | hm
      · exact hdraft (Library.mentions_iff.mpr (.inr ⟨m, hm, hmention⟩))
      · obtain rfl := List.mem_singleton.mp hm
        exact h.libraries m known id hmention
  | @define d d' x builder hd known hd' =>
    obtain rfl := Draft.define_eq_ok hd'
    refine h.drafted builder fun id hid => h.drafts d (Table.mem_values_of_find? hd) id ?_
    have hmention := Library.mentions_iff.mp hid
    exact Library.mentions_iff.mpr hmention
  | @script x handle hstamp given =>
    exact { h.scripted handle fun id hid => hlt (given id hid) with }
  | @addScript d d' x copy builder handle hd hd' given =>
    obtain ⟨hcopy, rfl⟩ := Draft.addScript_eq_ok hd'
    have hdraft := h.drafts d (Table.mem_values_of_find? hd)
    have hscript : ∀ id, copy.Mentions id → id < s.store.next := by
      intro id hid
      rw [hcopy] at hid
      rcases Script.mentions_withStatics hid with rfl | hid
      · exact hdraft _ (Library.mentions_iff.mpr (.inl (.inl rfl)))
      · exact hlt (given id hid)
    have hlibrary : ∀ id, ({ d with scripts := d.scripts ++ [copy] } : Draft).library.Mentions id →
        id < s.store.next := by
      intro id hid
      rcases Library.mentions_iff.mp hid with (hstatics | ⟨y, hy, hmention⟩) | hdepends
      · exact hdraft id (Library.mentions_iff.mpr (.inl (.inl hstatics)))
      · rcases List.mem_append.mp hy with hy | hy
        · exact hdraft id (Library.mentions_iff.mpr (.inl (.inr ⟨y, hy, hmention⟩)))
        · obtain rfl := List.mem_singleton.mp hy
          exact hscript id hmention
      · exact hdraft id (Library.mentions_iff.mpr (.inr hdepends))
    exact { (h.scripted handle hscript).drafted builder hlibrary with }
  | @build d l builder handle hd hl =>
    obtain rfl := Draft.build_eq_ok hl
    refine { given_without h builder .builder with libraries := fun m hm => ?_ }
    rcases Table.mem_values_of_insert hm with rfl | hm
    · exact h.drafts d (Table.mem_values_of_find? hd)
    · exact h.libraries m hm
  | load isOpen known hload =>
    obtain ⟨rfl, -⟩ := Catalog.load_eq_ok hload
    refine { h with catalog := fun m hm => ?_ }
    rcases List.mem_append.mp hm with hm | hm
    · exact h.catalog m hm
    · obtain rfl := List.mem_singleton.mp hm
      exact h.libraries m known
  | @resolve name x handle hx =>
    refine h.scripted handle fun id hid => ?_
    obtain ⟨l, hl, hmentions⟩ := Catalog.mentions_of_resolveScript hx hid
    exact h.catalog l hl id hmentions
  | drop => exact given_without h _ _
  | close =>
    exact { h.later hnext with
      catalog := fun _ hl => absurd hl List.not_mem_nil
      threads := fun _ ht => absurd ht List.not_mem_nil
      pendings := fun _ hp => absurd hp List.not_mem_nil }
  | tidy => exact h.later hnext
  | note | lock | pass | contract | type => exact { h with }

/-- **Every number that stands in a session was given out.** -/
theorem Reachable.given (h : s.Reachable) (hid : s.Mentions id) : id < s.store.next := by
  have hall := h.induct (P := fun s => s.Steady ∧ s.Given)
    (fun config => ⟨steady_start config, given_start config⟩)
    fun heff hs => ⟨steady_effect heff hs.1, given_effect heff hs.1 hs.2⟩
  exact hall.2.lt hall.1 hid

end Session

/-! ### Runs -/

/-- Whether a number occurs in what a task has still to do. -/
def Task.Mentions (id : GroupId) : Task → Prop
  | call _ c => c.Mentions id
  | construct _ _ _ scope => scope.context = some id
  | commands _ _ _ _ cs => commandsMention id cs
  | command _ _ _ c => c.Mentions id
  | dispatched _ _ _ c => c.Mentions id
  | inputs _ _ _ script _ rest => script.Mentions id ∨ inputsMention id rest
  | done _ => False

/-- Whether a number occurs in what is left to do when there is a result. -/
def Frame.Mentions (id : GroupId) : Frame → Prop
  | commands _ _ _ rest => commandsMention id rest
  | inputs _ _ _ script _ rest => script.Mentions id ∨ inputsMention id rest
  | object _ _ _ => False
  | thread _ _ => False

theorem Frame.mentions_resume {f : Frame} {ctx : Context} {s : Store} {id : GroupId}
    (h : (f.resume ctx s).1.Mentions id) : f.Mentions id := by
  cases f with
  | commands | inputs => exact h
  | object => cases h
  | thread held t =>
    rw [resume] at h
    split at h
    · cases h
    · cases h

namespace Moment

variable {env : Env} {m m' : Moment} {id : GroupId}

def Mentions (m : Moment) (id : GroupId) : Prop :=
  m.task.Mentions id ∨ ∃ f ∈ m.frames, f.Mentions id

/-- The task gives way to another one. -/
theorem mentions_of_task {task task' : Task} {fs : List Frame} {s s' : Store} {Q : Prop}
    (h : Mentions ⟨task', fs, s'⟩ id) (htask : task'.Mentions id → task.Mentions id ∨ Q) :
    Mentions ⟨task, fs, s⟩ id ∨ Q := by
  rcases h with h | h
  · exact (htask h).imp_left .inl
  · exact .inl (.inr h)

/-- The task is taken apart, into a first part and what waits for it. -/
theorem mentions_of_frame {task task' : Task} {f : Frame} {fs : List Frame} {s s' : Store}
    {Q : Prop} (h : Mentions ⟨task', f :: fs, s'⟩ id)
    (htask : task'.Mentions id ∨ f.Mentions id → task.Mentions id ∨ Q) :
    Mentions ⟨task, fs, s⟩ id ∨ Q := by
  rcases h with h | ⟨f', hf', h⟩
  · exact (htask (.inl h)).imp_left .inl
  · rcases List.mem_cons.mp hf' with rfl | hf'
    · exact (htask (.inr h)).imp_left .inl
    · exact .inl (.inr ⟨f', hf', h⟩)

/-- **No number comes up in a run**, but those that the catalog mentions. -/
theorem Next.mentions (h : Next env m m') (hid : m'.Mentions id) :
    m.Mentions id ∨ ∃ l ∈ env.catalog.libraries, l.Mentions id := by
  cases h with
  | entered h he =>
    refine mentions_of_frame hid fun hid => .inl ?_
    rcases hid with hid | hid
    · exact .inl (Script.mentions_iff.mpr (.inr hid))
    · exact hid.elim
  | callConstructor h hr =>
    refine mentions_of_frame hid fun hid => ?_
    rcases hid with (hid | hid) | hid
    · exact .inr (Catalog.mentions_of_resolveScript hr hid)
    · exact .inl hid
    · exact hid.elim
  | turn h => exact mentions_of_frame hid fun hid => .inl hid
  | dispatch h => exact .inl hid
  | @prepare callee script held t ctx cmd fs s inputs ha h =>
    refine mentions_of_task hid fun hid => ?_
    have hcommand : cmd.Mentions id ↔ inputsMention id inputs ∨ callee.Mentions id := by
      rw [Command.mentions_iff, ha, Action.Mentions]
    rcases hid with hid | hid
    · cases callee with
      | direct script' =>
        cases h
        exact .inl (hcommand.mpr (.inr hid))
      | named name => exact .inr (Catalog.mentions_of_resolveScript h hid)
    · exact .inl (hcommand.mpr (.inl hid))
  | input =>
    refine mentions_of_frame hid fun hid => .inl ?_
    rcases hid with hid | hid | hid
    · exact .inr (.inl hid)
    · exact .inl hid
    · exact .inr (.inr hid)
  | invoke =>
    refine mentions_of_task hid fun hid => .inl ?_
    rcases hid with hid | hid
    · exact .inl hid
    · cases hid
  | @resume ctx f fs s =>
    rcases hid with hid | ⟨f', hf', hid⟩
    · exact .inl (.inr ⟨f, List.mem_cons_self, Frame.mentions_resume hid⟩)
    · exact .inl (.inr ⟨f', List.mem_cons_of_mem _ hf', hid⟩)
  | abandon =>
    rcases hid with hid | ⟨f', hf', hid⟩
    · exact hid.elim
    · exact .inl (.inr ⟨f', List.mem_cons_of_mem _ hf', hid⟩)
  | create ha =>
    -- an object made by a command is lent nothing
    exact mentions_of_task hid fun hid => by cases hid
  | tooDeep | notEntered | made | noConstructor | finished | cancelled | denied | performed | failed
  | noScript => exact mentions_of_task hid fun hid => hid.elim

theorem Passes.mentions (h : Passes env m m') (hid : m'.Mentions id) :
    m.Mentions id ∨ ∃ l ∈ env.catalog.libraries, l.Mentions id := by
  induction h with
  | refl => exact .inl hid
  | tail _ hmove ih =>
    obtain ⟨cancelled, hnext⟩ := hmove
    rcases hnext.mentions hid with hid | hid
    · exact ih hid
    · exact .inr hid

end Moment

namespace Session

variable {s : Session} {start : Task} {m : Moment} {id : GroupId}

/-- What a host has run mentions no other numbers than the session does. -/
theorem Underway.mentions (h : s.Underway start) (hid : start.Mentions id) : s.Mentions id := by
  cases h with
  | rest isOpen => exact hid.elim
  | started hstarts =>
    cases hstarts with
    | call isOpen known given => exact given id hid
    | construct isOpen known given => exact given id hid
    | command thread known given => exact given id hid
    | commands thread known given => exact given id hid
  | @resumed name p hp turn =>
    iterate 8 right
    exact ⟨p, Table.mem_values_of_find? hp, hid⟩

/-- **The numbers that come up in a run were given out before it began.** -/
theorem Reachable.mentions_lt (h : s.Reachable) (hstart : s.Underway start)
    (hm : Moment.Passes s.env ⟨start, [], s.store⟩ m) (hid : m.Mentions id) :
    id < s.store.next := by
  refine h.given ?_
  rcases hm.mentions hid with (hid | ⟨f, hf, -⟩) | hid
  · exact hstart.mentions hid
  · exact absurd hf List.not_mem_nil
  · iterate 5 right
    exact .inl hid

end Session

end Steward
