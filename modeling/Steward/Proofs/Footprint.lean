/-
The footprint of a run: what is left in the memory when a call is over.

A call opens two groups and closes them when it ends, whichever way it ends; everything in
between leaves alone what stands, and only adds keys to the variables of a thread of its own.

* **`Next.change`** — what a step does to the store: it keeps what stands, or it enters a call,
  or it leaves one;
* **`Lodged s₀ m`** — at every moment of a run that began in `s₀`, what stands are the groups
  that stood in `s₀` and those of the threads that are alive (`Next.lodged`);
* **`Within s₀ m`** — and if the run is that of a call, keys are added to its own groups alone;
* **`run_footprint`** — when the run is over no thread is alive, so what stands is what stood,
  and what is still there has the keys it had.

Design notes: that stores are orderly does not depend on how a run was started, so it holds of
every moment of every run of every session (`Reachable.orderly`, `Passes.orderly`), and the
footprint is that of every call, nested or not.  No step asks who is cancelled but to stop, so it
is also that of calls that are cancelled after some of their commands, or inside of another call.
-/
import Steward.Proofs.Changes
import Steward.Proofs.SoundSession

namespace Steward

/-- The thread whose commands a task executes. -/
def Task.runner? : Task → Option Thread
  | commands _ t _ _ _ => some t
  | command _ t _ _ => some t
  | dispatched _ t _ _ => some t
  | inputs _ t _ _ _ _ => some t
  | _ => none

/-- The thread whose commands go on when there is a result. -/
def Frame.runner? : Frame → Option Thread
  | commands _ t _ _ => some t
  | inputs _ t _ _ _ _ => some t
  | _ => none

/-- A frame goes on in its own thread. -/
theorem Frame.runner?_resume {f : Frame} {ctx : Context} {s : Store} {t : Thread}
    (h : (f.resume ctx s).1.runner? = some t) : f.runner? = some t := by
  cases f with
  | commands | inputs => exact h
  | object => cases h
  | thread held u =>
    rw [resume] at h
    split at h
    · cases h
    · cases h

namespace Moment

variable {env : Env} {m m' : Moment}

/-! ### What a step does -/

/-- Whether a group holds the variables of the thread whose turn it is. -/
def Writes (m : Moment) (id : GroupId) : Prop :=
  ∃ t, m.task.runner? = some t ∧ t.locals = id

/-- Whether a store comes of a variable that the thread declares whose turn it is, where no group
has got a key besides. -/
def Declares (m : Moment) (s' : Store) : Prop :=
  ∃ (t : Thread) (key : Key) (s : Store), m.task.runner? = some t ∧
    t.view.add m.store key none = .ok (true, s) ∧ s.Keeps (fun _ => False) s'

theorem Declares.keeps {s' : Store} (h : m.Declares s') (hs : m.store.Orderly) :
    m.store.Keeps m.Writes s' := by
  obtain ⟨t, key, s, ht, hadd, hkeeps⟩ := h
  have hdeclare : m.store.Keeps m.Writes s :=
    (Thread.keeps_declare hs hadd).mono fun id hid => ⟨t, ht, hid⟩
  exact hdeclare.trans (hkeeps.mono fun _ ho => ho.elim)

/-- **What a step does to the store**: it keeps what stands, with its keys or with one more, or it
enters a call, or it leaves one. -/
theorem Next.change (h : Next env m m') (hs : m.store.Orderly) :
    (m'.threads = m.threads ∧ (m.store.Keeps (fun _ => False) m'.store ∨ m.Declares m'.store)) ∨
    (∃ t, m'.threads = t :: m.threads ∧ t.Opens m.store m'.store) ∨
    (∃ t, m.threads = t :: m'.threads ∧ t.Closes m.store m'.store) := by
  cases h with
  | notEntered h he => exact .inl ⟨rfl, .inl (Thread.keeps_enter hs he _)⟩
  | entered h he => exact .inr (.inl ⟨_, rfl, (Thread.opens_enter hs he).letGo _ _⟩)
  | made h => exact .inl ⟨rfl, .inl ((Store.keeps_instantiate hs _).letGo _ _)⟩
  | noConstructor h hr => exact .inl ⟨rfl, .inl (Store.keeps_instantiate hs _)⟩
  | callConstructor h hr => exact .inl ⟨rfl, .inl (Store.keeps_instantiate hs _)⟩
  | performed ha h =>
    refine .inl ⟨rfl, ?_⟩
    rcases Thread.keeps_or_declares hs h with hkeeps | ⟨key, hadd⟩
    · exact .inl (hkeeps.letGo _ _)
    · have horderly := (Thread.keeps_declare hs hadd).orderly
      exact .inr ⟨_, key, _, rfl, hadd, Store.keeps_letGo horderly _ _⟩
  | failed ha h =>
    refine .inl ⟨rfl, ?_⟩
    rcases Thread.keeps_or_declares hs h with hkeeps | ⟨key, hadd⟩
    · exact .inl hkeeps
    · have horderly := (Thread.keeps_declare hs hadd).orderly
      exact .inr ⟨_, key, _, rfl, hadd, .refl horderly⟩
  | @resume ctx f fs s =>
    cases f with
    | commands | inputs => exact .inl ⟨rfl, .inl (.refl hs)⟩
    | object held ctx' o => exact .inl ⟨rfl, .inl ((Store.keeps_letGo hs _ _).letGo _ _)⟩
    | thread held t =>
      refine .inr (.inr ⟨t, rfl, ?_⟩)
      dsimp only [Frame.resume]
      split
      · exact Thread.closes_leave hs t
      · exact (Thread.closes_leave hs t).letGo _ _
  | @abandon e f fs s =>
    cases f with
    | commands | inputs | object => exact .inl ⟨rfl, .inl (.refl hs)⟩
    | thread held t => exact .inr (.inr ⟨t, rfl, Thread.closes_leave hs t⟩)
  | tooDeep | finished | cancelled | turn | denied | dispatch | create | noScript | prepare
  | input | invoke => exact .inl ⟨rfl, .inl (.refl hs)⟩

/-- If no call is entered or left, keys are added to the variables of the thread whose turn it is,
if at all. -/
theorem keeps_writes {s' : Store} (hs : m.store.Orderly)
    (h : m.store.Keeps (fun _ => False) s' ∨ m.Declares s') : m.store.Keeps m.Writes s' := by
  rcases h with hkeeps | hdeclares
  · exact hkeeps.mono fun _ ho => ho.elim
  · exact hdeclares.keeps hs

/-- Every store is orderly that a run comes by, if the first one is. -/
theorem Passes.orderly (h : Passes env m m') (hs : m.store.Orderly) : m'.store.Orderly :=
  (h.changes.ages hs).orderly

/-! ### From the beginning of a run -/

/-- The threads whose commands go on, now or when there is a result. -/
def runners (m : Moment) : List Thread :=
  m.task.runner?.toList ++ m.frames.filterMap Frame.runner?

@[simp]
theorem mem_runners {task : Task} {fs : List Frame} {s : Store} {t : Thread} :
    t ∈ runners ⟨task, fs, s⟩ ↔ task.runner? = some t ∨ ∃ f ∈ fs, f.runner? = some t := by
  simp [runners]

/-- A thread whose commands go on did so before, or its call was entered just now. -/
theorem Next.runners (h : Next env m m') (hs : m.store.Orderly) {t : Thread}
    (ht : t ∈ m'.runners) : t ∈ m.runners ∨ t.Opens m.store m'.store := by
  cases h with
  | entered h he =>
    rcases mem_runners.mp ht with hrunner | ⟨f, hf, hrunner⟩
    · cases hrunner
      exact .inr ((Thread.opens_enter hs he).letGo _ _)
    · rcases List.mem_cons.mp hf with rfl | hf
      · cases hrunner
      · exact .inl (mem_runners.mpr (.inr ⟨f, hf, hrunner⟩))
  | resume =>
    simp only [mem_runners, List.mem_cons, exists_eq_or_imp] at ht ⊢
    exact .inl (.inr (ht.imp Frame.runner?_resume id))
  | abandon =>
    obtain ⟨f, hf, hrunner⟩ := List.mem_filterMap.mp ht
    exact .inl (List.mem_filterMap.mpr ⟨f, List.mem_cons_of_mem _ hf, hrunner⟩)
  | turn | input =>
    -- the frame waits for the thread that goes on
    rcases List.mem_cons.mp ht with rfl | ht
    · exact .inl List.mem_cons_self
    · exact .inl ht
  | dispatch | prepare => exact .inl ht
  | tooDeep | notEntered | made | noConstructor | callConstructor | finished | cancelled | denied
  | performed | failed | create | noScript | invoke => exact .inl (List.mem_append_right _ ht)

/-- The groups of the threads that are alive. -/
def opened (m : Moment) : List GroupId :=
  m.threads.flatMap Thread.groups

/-- What holds at every moment of a run that began in `s₀`, whatever it began with: the run has
groups of its own, which stand beside those that stood before. -/
structure Lodged (s₀ : Store) (m : Moment) : Prop where
  orderly : m.store.Orderly
  next_le : s₀.next ≤ m.store.next
  nodup : m.opened.Nodup
  fresh : ∀ id ∈ m.opened, s₀.next ≤ id
  standing_iff : ∀ id, id ∈ m.store.standing ↔ id ∈ s₀.standing ∨ id ∈ m.opened

/-- The same of a run whose threads were all entered after it began: keys are added to its own
groups alone. -/
structure Within (s₀ : Store) (m : Moment) : Prop extends Lodged s₀ m where
  ages : s₀.Ages (fun _ => False) m.store
  runners : ∀ t ∈ m.runners, s₀.next ≤ t.locals

section Lodged

variable {s₀ : Store} {t : Thread}

theorem lodged_start (hs₀ : s₀.Orderly) (task : Task) : Lodged s₀ ⟨task, [], s₀⟩ where
  orderly := hs₀
  next_le := Nat.le_refl _
  nodup := List.nodup_nil
  fresh _ hid := absurd hid List.not_mem_nil
  standing_iff id := by simp [opened, threads]

theorem Lodged.opened_lt (h : Lodged s₀ m) : ∀ id ∈ m.opened, id < m.store.next := by
  intro id hid
  exact h.orderly.lt_of_standing ((h.standing_iff id).mpr (.inr hid))

/-- No thread comes or goes. -/
theorem Lodged.keep {own : GroupId → Prop} (h : Lodged s₀ m) (hthreads : m'.threads = m.threads)
    (hkeeps : m.store.Keeps own m'.store) : Lodged s₀ m' := by
  have hopened : m'.opened = m.opened := by rw [opened, hthreads, opened]
  refine ⟨hkeeps.orderly, Nat.le_trans h.next_le hkeeps.next_le, hopened ▸ h.nodup,
    hopened ▸ h.fresh, ?_⟩
  intro id
  rw [hkeeps.standing_eq, hopened]
  exact h.standing_iff id

/-- A thread comes, with two groups whose numbers no group had. -/
theorem Lodged.open (h : Lodged s₀ m) (hthreads : m'.threads = t :: m.threads)
    (hopens : t.Opens m.store m'.store) : Lodged s₀ m' := by
  have hopened : m'.opened = t.inputs :: t.locals :: m.opened := by
    rw [opened, hthreads, opened]
    rfl
  refine ⟨hopens.orderly, Nat.le_trans h.next_le hopens.next_le, ?_, ?_, ?_⟩
  · rw [hopened, hopens.inputs_eq, hopens.locals_eq, List.nodup_cons, List.nodup_cons,
      List.mem_cons]
    refine ⟨?_, fun hmem => Nat.not_succ_lt_self (h.opened_lt _ hmem), h.nodup⟩
    rintro (heq | hmem)
    · exact Nat.succ_ne_self _ heq.symm
    · exact Nat.lt_irrefl _ (h.opened_lt _ hmem)
  · have hinputs : s₀.next ≤ t.inputs := hopens.inputs_eq ▸ h.next_le
    have hlocals : s₀.next ≤ t.locals := hopens.locals_eq ▸ Nat.le_succ_of_le h.next_le
    rw [hopened]
    exact List.forall_mem_cons.mpr ⟨hinputs, List.forall_mem_cons.mpr ⟨hlocals, h.fresh⟩⟩
  · intro id
    rw [hopens.standing_eq, hopened, Set.mem_insert_iff, Set.mem_insert_iff, h.standing_iff,
      List.mem_cons, List.mem_cons]
    grind

/-- The innermost thread goes, with two groups that did not stand before the run and that no
other thread has. -/
theorem Lodged.close (h : Lodged s₀ m) (hs₀ : s₀.Orderly) (hthreads : m.threads = t :: m'.threads)
    (hcloses : t.Closes m.store m'.store) : Lodged s₀ m' := by
  have hopened : m.opened = t.groups ++ m'.opened := by
    rw [opened, hthreads, List.flatMap_cons, opened]
  have hnodup := h.nodup
  rw [hopened, List.nodup_append] at hnodup
  have hfresh := h.fresh
  rw [hopened] at hfresh
  refine ⟨hcloses.orderly, Nat.le_trans h.next_le hcloses.next_le, hnodup.2.1, ?_, ?_⟩
  · intro id hid
    exact hfresh id (List.mem_append_right _ hid)
  · intro id
    have hgone : id ∈ t.groups ↔ id = t.inputs ∨ id = t.locals := by simp [Thread.groups]
    have hbefore : id ∈ t.groups → id ∉ s₀.standing := fun hid hstood =>
      absurd (hs₀.lt_of_standing hstood)
        (Nat.not_lt.mpr (hfresh id (List.mem_append_left _ hid)))
    have hother : id ∈ t.groups → id ∉ m'.opened := fun hid hmem =>
      hnodup.2.2 id hid id hmem rfl
    rw [hcloses.standing_eq, Set.mem_sdiff, Set.mem_sdiff, Set.mem_singleton_iff,
      Set.mem_singleton_iff, h.standing_iff, hopened, List.mem_append, and_assoc, ← not_or, ← hgone]
    constructor
    · rintro ⟨hstood | hid | hmem, hout⟩
      · exact .inl hstood
      · exact absurd hid hout
      · exact .inr hmem
    · rintro (hstood | hmem)
      · exact ⟨.inl hstood, fun hid => hbefore hid hstood⟩
      · exact ⟨.inr (.inr hmem), fun hid => hother hid hmem⟩

theorem Next.lodged (h : Next env m m') (hm : Lodged s₀ m) (hs₀ : s₀.Orderly) :
    Lodged s₀ m' := by
  rcases h.change hm.orderly with
    ⟨hthreads, hkeeps⟩ | ⟨t, hthreads, hopens⟩ | ⟨t, hthreads, hcloses⟩
  · exact hm.keep hthreads (keeps_writes hm.orderly hkeeps)
  · exact hm.open hthreads hopens
  · exact hm.close hs₀ hthreads hcloses

theorem Passes.lodged (h : Passes env m m') (hm : Lodged s₀ m) (hs₀ : s₀.Orderly) :
    Lodged s₀ m' :=
  h.invariant (fun hnext ih => hnext.lodged ih hs₀) hm

/-- **When a run is over, what stands is what stood**, whatever it began with and whoever was
cancelled in the course of it. -/
theorem ComesTo.standing_eq {task : Task} {out : Outcome Context}
    (h : ComesTo env ⟨task, [], s₀⟩ out) (hs₀ : s₀.Orderly) : out.2.standing = s₀.standing := by
  have hend := Passes.lodged h (lodged_start hs₀ task) hs₀
  ext id
  refine (hend.standing_iff id).trans ?_
  simp [opened, threads]

/-- A thread whose commands go on in the next moment belongs to the run. -/
theorem Within.runners_next (h : Within s₀ m) (hnext : Next env m m') :
    ∀ t ∈ m'.runners, s₀.next ≤ t.locals := by
  intro t ht
  rcases hnext.runners h.orderly ht with ht | hopens
  · exact h.runners t ht
  · rw [hopens.locals_eq]
    exact Nat.le_succ_of_le h.next_le

/-- **A step stays within what the run opened.** -/
theorem Next.within (h : Next env m m') (hm : Within s₀ m) (hs₀ : s₀.Orderly) :
    Within s₀ m' := by
  refine ⟨h.lodged hm.toLodged hs₀, ?_, hm.runners_next h⟩
  rcases h.change hm.orderly with ⟨-, hkeeps⟩ | ⟨t, -, hopens⟩ | ⟨t, -, hcloses⟩
  · refine hm.ages.trans (keeps_writes hm.orderly hkeeps).toAges ?_
    -- the variables of a thread of the run are not among the old groups
    rintro id hid ⟨t, ht, rfl⟩
    have hle := hm.runners t (List.mem_append_left _ (Option.mem_toList.mpr ht))
    exact absurd hid (Nat.not_lt.mpr hle)
  · exact hm.ages.trans hopens.toAges fun _ _ ho => ho
  · exact hm.ages.trans hcloses.toAges fun _ _ ho => ho

/-- A call is within what it opens, from the moment it is made. -/
theorem within_call {held : Held} {c : Call} (hs₀ : s₀.Orderly) :
    Within s₀ ⟨.call held c, [], s₀⟩ where
  toLodged := lodged_start hs₀ _
  ages := .refl hs₀
  runners _ ht := by simp [Task.runner?] at ht

theorem Passes.within (h : Passes env m m') (hm : Within s₀ m) (hs₀ : s₀.Orderly) :
    Within s₀ m' :=
  h.invariant (fun hnext ih => hnext.within ih hs₀) hm

end Lodged

/-- When a call is over, what stands is what stood, and keys are as they were. -/
theorem ComesTo.keeps {held : Held} {c : Call} {s : Store} {out : Outcome Context}
    (h : ComesTo env ⟨.call held c, [], s⟩ out) (hs : s.Orderly) :
    s.Keeps (fun _ => False) out.2 :=
  ⟨(Passes.within h (within_call hs) hs).ages, h.standing_eq hs⟩

end Moment

/-! ### Sessions -/

namespace Session

theorem orderly_effect {s s' : Session} (heff : Effect s s') (h : s.store.Orderly) :
    s'.store.Orderly :=
  (heff.changes.ages h).orderly

/-- The store of every session there can be is orderly. -/
theorem Reachable.orderly {s : Session} (h : s.Reachable) : s.store.Orderly :=
  h.induct (P := fun s => s.store.Orderly) (fun _ => Store.orderly_empty) orderly_effect

/-- **The footprint of a run.**  Take any moment of any run in any session, and a call that is
made then, of whatever script.  However the call ends, whoever is cancelled in the course of it or
of the calls that it makes: the live groups that are not the fields of an object are those that were
live before, and every group that was live before and still is has the role it had, and its keys in
their order.  What `Env.run` gives is one of these ends, and if it is the call that the run makes at
that moment, the run goes on with one of them. -/
theorem run_footprint {s : Session} (hs : s.Reachable) {env : Env} {start : Task} {m : Moment}
    (hm : Moment.Passes env ⟨start, [], s.store⟩ m) (held : Held) (c : Call) :
    (∀ out, Moment.ComesTo env ⟨.call held c, [], m.store⟩ out →
      out.2.standing = m.store.standing ∧
      ∀ id g g', m.store.group? id = some g → out.2.group? id = some g' →
        g'.role = g.role ∧ g'.keys = g.keys) ∧
    Moment.ComesTo env ⟨.call held c, [], m.store⟩ (env.run held c m.store) ∧
    (m.task = .call held c → ∀ m', Moment.Passes env m m' →
      (∃ x, Moment.Passes env ⟨.call held c, [], m.store⟩ x ∧ m' = x.atop m.frames) ∨
      ∃ out, Moment.ComesTo env ⟨.call held c, [], m.store⟩ out ∧
        Moment.Passes env ⟨.done out.1, m.frames, out.2⟩ m') := by
  refine ⟨fun out hout => ?_, Moment.comesTo_outcome env ⟨.call held c, [], m.store⟩, ?_⟩
  · have horderly : m.store.Orderly := hm.orderly hs.orderly
    have hkeeps : m.store.Keeps (fun _ => False) out.2 := hout.keeps horderly
    refine ⟨hkeeps.standing_eq, fun id g g' hg hg' => ?_⟩
    obtain ⟨g₀, hg₀, hrole, hkeys⟩ := hkeeps.old (horderly.group_lt hg) hg'
    rw [hg] at hg₀
    cases hg₀
    exact ⟨hrole, hkeys not_false⟩
  · obtain ⟨task, fs, store⟩ := m
    rintro rfl m' hm'
    exact hm'.above_or_after

namespace Sample

/-- A script with two variables. -/
def declaring : Script :=
  .mk 0 ⟨"Declaring"⟩ [] none
    [⟨.primitive (.declare "v" ⟨"Text"⟩), ∅⟩, ⟨.primitive (.declare "w" ⟨"Text"⟩), ∅⟩] none

/-- A script that calls the other one. -/
def outer : Script :=
  .mk 1 ⟨"Outer"⟩ [] none [⟨.invoke [] (.direct declaring), ∅⟩] none

/-- A call with a token. -/
def revocable : Call where
  script := outer
  scope := { token := some 0 }

end Sample

/-- The token is cancelled when the inner call has declared one of its variables. -/
theorem run_footprint_sample :
    2 ∈ sample.store.standing ∧ ∃ m held c out,
      Moment.Passes sample.env ⟨.call ∅ Sample.revocable, [], sample.store⟩ m ∧
      m.task = .call held c ∧ m.threads.length = 1 ∧
      Moment.ComesTo sample.env ⟨.call held c, [], m.store⟩ out ∧
      out.1 = .error (.cancelled "Declaring" 1) ∧ out.2.standing = m.store.standing := by
  have hstatics : (sample.store.group? 2).map Group.role = some .statics := by decide +kernel
  -- the outer script begins and calls
  have hcall : Moment.Undisturbed sample.env ⟨.call ∅ Sample.revocable, [], sample.store⟩ _ :=
    .head (.entered (by decide) rfl) <| .head (.turn rfl) <| .head (.dispatch (by decide)) <|
    .head (.prepare rfl rfl) <| .single .invoke
  -- the inner one declares a variable, and when it looks again it is cancelled
  obtain ⟨m, held, c, out, hm, htask, hthreads, hend, hcancelled⟩ : ∃ m held c out,
      Moment.Passes sample.env ⟨.call ∅ Sample.revocable, [], sample.store⟩ m ∧
      m.task = .call held c ∧ m.threads.length = 1 ∧
      Moment.ComesTo sample.env ⟨.call held c, [], m.store⟩ out ∧
      out.1 = .error (.cancelled "Declaring" 1) :=
    ⟨_, _, _, (_, _), hcall.passes, rfl, rfl,
      .trans (Moment.Undisturbed.passes <| .head (.entered (by decide) rfl) <|
        .head (.turn rfl) <| .head (.dispatch (by decide)) <| .head (.performed rfl rfl) <|
        .single .resume) <|
      .tail (.single ⟨[0], .cancelled rfl⟩) ⟨[0], .abandon⟩, rfl⟩
  refine ⟨?_, m, held, c, out, hm, htask, hthreads, hend, hcancelled, ?_⟩
  · obtain ⟨g, hg, hrole⟩ := Option.map_eq_some_iff.mp hstatics
    exact ⟨g, hg, by simp [hrole]⟩
  · exact ((run_footprint reachable_sample hm held c).1 out hend).1

end Session

end Steward
